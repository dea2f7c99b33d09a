import Federated.Tool.ServiceStart

/-!
# A service with its options

The whole way from the arguments of a command line to the address that a service names. The
options may be given in any spelling and more than once, but one spelling asks for help: the short
name of the address by itself.
-/

namespace Federated.Tool

open Library Service

variable {w : World} {app : App} {cli cli' : Cli} {cmd : Command} {args : List Argument}
  {groups : List (Group cmd)}

/-! ## Help -/

theorem noNul_given (front : List Bytes)
    (hargs : args.map Argument.text = front ++ groups.flatMap Group.words) :
    ∀ g ∈ groups, 0 ∉ g.given := by
  intro g hg
  refine Group.noNul_given fun word hword => ?_
  have hmem : word ∈ args.map Argument.text := by
    rw [hargs]
    exact List.mem_append_right _ (List.mem_flatMap.mpr ⟨g, hg, hword⟩)
  obtain ⟨arg, -, rfl⟩ := List.mem_map.mp hmem
  exact arg.noNul

/-! ## The variables -/

/-- The value that an option was given last, as far as it is kept. -/
def given (groups : List (Group cmd)) (o : CliOption) : Option Bytes :=
  (Group.last groups o).map (List.take 255)

end Federated.Tool
