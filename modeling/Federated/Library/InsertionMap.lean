import Mathlib.Data.List.Nodup
import Mathlib.Logic.Function.Basic

/-!
# Maps that remember the order of insertion

Records under their keys. A key keeps the time at which it was inserted first since
it was last removed, and the record that was inserted last. A list describes such a
map if it holds its records in the order of those times.
-/

namespace Federated.Library

variable {κ β : Type*} {key : β → κ}

/-! ## Lists of records -/

section

variable [DecidableEq κ] {l : List β} {v : β}

/-- Put a record in the place of the first one that has its key, or behind all of them. -/
def put (key : β → κ) (l : List β) (v : β) : List β :=
  match l.findIdx? fun u => key u = key v with
  | some i => l.set i v
  | none => l ++ [v]

theorem put_of_notMem (h : key v ∉ l.map key) : put key l v = l ++ [v] := by
  have hnone : l.findIdx? (fun u => key u = key v) = none := by
    simpa [List.findIdx?_eq_none_iff] using h
  rw [put, hnone]

theorem put_of_mem (h : key v ∈ l.map key) :
    ∃ pre u post, l = pre ++ u :: post ∧ key u = key v ∧ put key l v = pre ++ v :: post := by
  cases hfind : l.findIdx? (fun u => key u = key v) with
  | none =>
    rw [List.findIdx?_eq_none_iff] at hfind
    obtain ⟨u, hu, hkey⟩ := List.mem_map.mp h
    exact absurd hkey (by simpa using hfind u hu)
  | some i =>
    obtain ⟨hi, hkey, -⟩ := List.findIdx?_eq_some_iff_getElem.mp hfind
    refine ⟨l.take i, l[i], l.drop (i + 1), by simp, by simpa using hkey, ?_⟩
    simp [put, hfind, List.set_eq_take_append_cons_drop, hi]

/-- The keys after a record was put into a list. -/
theorem map_put (l : List β) (v : β) :
    (put key l v).map key = if key v ∈ l.map key then l.map key else l.map key ++ [key v] := by
  split
  case isTrue h =>
    obtain ⟨pre, u, post, rfl, hkey, hput⟩ := put_of_mem h
    simp [hput, hkey]
  case isFalse h => simp [put_of_notMem h]

/-- Where no key comes twice, a key goes with the first record that has it. -/
theorem notMem_map_eraseP {l : List β} (h : (l.map key).Nodup) (k : κ) :
    k ∉ (l.eraseP fun v => key v = k).map key := by
  induction l with
  | nil => simp
  | cons v l ih =>
    rw [List.map_cons, List.nodup_cons] at h
    by_cases hv : key v = k
    · simpa [hv] using h.1
    · simpa [hv, Ne.symm hv] using ih h.2

end

structure InsertionMap (key : β → κ) where
  clock : Nat
  entry : κ → Option (Nat × β)
  keyed : ∀ k t v, entry k = some (t, v) → key v = k
  past : ∀ k t v, entry k = some (t, v) → t < clock

namespace InsertionMap

def empty : InsertionMap key := ⟨0, fun _ => none, nofun, nofun⟩

/-- When a key was inserted first since it was last removed. -/
def time (m : InsertionMap key) (k : κ) : Option Nat := (m.entry k).map Prod.fst

def clear (m : InsertionMap key) : InsertionMap key := { m with
  entry := fun _ => none
  keyed := nofun
  past := nofun }

section

variable [DecidableEq κ]

def insert (m : InsertionMap key) (v : β) : InsertionMap key where
  clock := m.clock + 1
  entry := Function.update m.entry (key v) (some ((m.time (key v)).getD m.clock, v))
  keyed k t w h := by
    by_cases hk : k = key v
    · subst hk
      rw [Function.update_self] at h
      cases h
      rfl
    · rw [Function.update_of_ne hk] at h
      exact m.keyed k t w h
  past k t w h := by
    by_cases hk : k = key v
    · subst hk
      rw [Function.update_self, time] at h
      cases hentry : m.entry (key v) with
      | none =>
        rw [hentry] at h
        cases h
        exact Nat.lt_succ_self _
      | some e =>
        rw [hentry] at h
        cases h
        exact Nat.lt_succ_of_lt (m.past _ e.1 e.2 hentry)
    · rw [Function.update_of_ne hk] at h
      exact Nat.lt_succ_of_lt (m.past k t w h)

def remove (m : InsertionMap key) (k : κ) : InsertionMap key where
  clock := m.clock
  entry := Function.update m.entry k none
  keyed k' t w h := by
    by_cases hk : k' = k
    · rw [hk, Function.update_self] at h
      cases h
    · rw [Function.update_of_ne hk] at h
      exact m.keyed k' t w h
  past k' t w h := by
    by_cases hk : k' = k
    · rw [hk, Function.update_self] at h
      cases h
    · rw [Function.update_of_ne hk] at h
      exact m.past k' t w h

end

/-! ## The list of the records -/

/-- A list holds the records of the map, in the order of their insertion. -/
structure Lists (m : InsertionMap key) (l : List β) : Prop where
  mem_iff : ∀ v, v ∈ l ↔ ∃ t, m.entry (key v) = some (t, v)
  sorted : (l.map key).Pairwise fun a b => ∀ s ∈ m.time a, ∀ t ∈ m.time b, s < t

variable {m : InsertionMap key} {l : List β} {v : β}

theorem lists_empty : (empty : InsertionMap key).Lists [] := ⟨by simp [empty], .nil⟩

theorem lists_clear (m : InsertionMap key) : m.clear.Lists [] := ⟨by simp [clear], .nil⟩

/-- No two records of the list have the same key. -/
theorem Lists.nodup (h : m.Lists l) : (l.map key).Nodup := by
  refine h.sorted.imp_of_mem fun {a b} ha _ hlt => ?_
  rintro rfl
  obtain ⟨v, hv, rfl⟩ := List.mem_map.mp ha
  obtain ⟨t, ht⟩ := (h.mem_iff v).mp hv
  have htime : t ∈ m.time (key v) := by simp [time, ht]
  exact absurd (hlt t htime t htime) (Nat.lt_irrefl _)

/-- A key is in the map if and only if it is one of a listed record. -/
theorem Lists.key_mem_iff (h : m.Lists l) {k : κ} : k ∈ l.map key ↔ m.entry k ≠ none := by
  rw [List.mem_map, Option.ne_none_iff_exists']
  constructor
  · rintro ⟨v, hv, rfl⟩
    obtain ⟨t, ht⟩ := (h.mem_iff v).mp hv
    exact ⟨_, ht⟩
  · rintro ⟨⟨t, v⟩, hentry⟩
    obtain rfl := m.keyed k t v hentry
    exact ⟨v, (h.mem_iff v).mpr ⟨t, hentry⟩, rfl⟩

variable [DecidableEq κ]

/-- A record with a new key comes behind the others. -/
theorem Lists.insert_new (h : m.Lists l) (hnew : key v ∉ l.map key) :
    (m.insert v).Lists (l ++ [v]) := by
  have hnone : m.entry (key v) = none := by
    by_contra hsome
    exact hnew (h.key_mem_iff.mpr hsome)
  have hother : ∀ k ∈ l.map key, (m.insert v).entry k = m.entry k := by
    intro k hk
    apply Function.update_of_ne
    rintro rfl
    exact hnew hk
  have hself : (m.insert v).entry (key v) = some (m.clock, v) := by
    simp [insert, time, hnone]
  constructor
  · intro w
    rw [List.mem_append, List.mem_singleton]
    by_cases hw : key w = key v
    · have hnot : w ∉ l := fun hmem => hnew (hw ▸ List.mem_map_of_mem hmem)
      rw [hw, hself]
      simp [hnot, eq_comm]
    · have hentry : (m.insert v).entry (key w) = m.entry (key w) := Function.update_of_ne hw _ _
      rw [hentry, ← h.mem_iff w, or_iff_left]
      rintro rfl
      exact hw rfl
  · rw [List.map_append, List.pairwise_append]
    refine ⟨h.sorted.imp_of_mem fun {a b} ha hb hlt => ?_, List.pairwise_singleton _ _, ?_⟩
    · simpa [time, hother a ha, hother b hb] using hlt
    · intro a ha b hb s hs t ht
      obtain rfl : b = key v := by simpa using hb
      obtain rfl : m.clock = t := by simpa [time, hself] using ht
      rw [time, hother a ha] at hs
      obtain ⟨⟨s', w⟩, hentry, rfl⟩ := Option.map_eq_some_iff.mp hs
      exact m.past a s' w hentry

/-- A record with a key of the list takes the place of the one that has it. -/
theorem Lists.insert_old {pre post : List β} {u : β} (h : m.Lists (pre ++ u :: post))
    (hkey : key u = key v) : (m.insert v).Lists (pre ++ v :: post) := by
  have hmap : (pre ++ v :: post).map key = (pre ++ u :: post).map key := by simp [hkey]
  obtain ⟨t, ht⟩ := (h.mem_iff u).mp (by simp)
  have htime : (m.insert v).time = m.time := by
    funext k
    by_cases hk : k = key v
    · subst hk
      rw [hkey] at ht
      simp [insert, time, ht]
    · simp [insert, time, Function.update_of_ne hk]
  refine ⟨fun w => ?_, by rw [hmap, htime]; exact h.sorted⟩
  have hnodup := h.nodup
  rw [List.map_append, List.map_cons, List.nodup_middle, List.nodup_cons, ← List.map_append,
    hkey] at hnodup
  by_cases hw : key w = key v
  · have hnot : w ∉ pre ++ post := fun hmem => hnodup.1 (hw ▸ List.mem_map_of_mem hmem)
    have hself : (m.insert v).entry (key w) = some (t, v) := by
      rw [hkey] at ht
      simp [insert, time, hw, ht]
    rw [hself, List.perm_middle.mem_iff, List.mem_cons, or_iff_left hnot]
    simp [eq_comm]
  · have hentry : (m.insert v).entry (key w) = m.entry (key w) := Function.update_of_ne hw _ _
    have hu := h.mem_iff w
    rw [List.perm_middle.mem_iff, List.mem_cons] at hu ⊢
    rw [hentry, ← hu]
    have hneu : w ≠ u := by
      rintro rfl
      exact hw hkey
    have hnev : w ≠ v := by
      rintro rfl
      exact hw rfl
    simp [hneu, hnev]

/-- Putting a record into the list inserts it. -/
theorem Lists.put (h : m.Lists l) (v : β) : (m.insert v).Lists (put key l v) := by
  by_cases hmem : key v ∈ l.map key
  · obtain ⟨pre, u, post, rfl, hkey, hput⟩ := put_of_mem hmem
    rw [hput]
    exact h.insert_old hkey
  · rw [put_of_notMem hmem]
    exact h.insert_new hmem

/-- The first record of a key is the only one, so taking it out removes the key. -/
theorem Lists.remove (h : m.Lists l) (k : κ) :
    (m.remove k).Lists (l.eraseP fun v => key v = k) := by
  have hsub : (l.eraseP fun v => key v = k).Sublist l := List.eraseP_sublist
  have hother : ∀ k' ≠ k, (m.remove k).entry k' = m.entry k' := fun k' hk' =>
    Function.update_of_ne hk' _ _
  have hmem : ∀ v, v ∈ l.eraseP (fun v => key v = k) ↔ v ∈ l ∧ key v ≠ k := by
    intro v
    by_cases hv : key v = k
    · have hgone := notMem_map_eraseP h.nodup k
      simp only [hv, ne_eq, not_true, and_false, iff_false]
      rintro hin
      exact hgone (List.mem_map.mpr ⟨v, hin, hv⟩)
    · simp [hv]
  constructor
  · intro v
    rw [hmem]
    by_cases hv : key v = k
    · simp [hv, InsertionMap.remove]
    · rw [hother _ hv, ← h.mem_iff v, and_iff_left hv]
  · refine (h.sorted.sublist (hsub.map key)).imp_of_mem fun {a b} ha hb hlt => ?_
    have hne : ∀ a ∈ (l.eraseP fun v => key v = k).map key, a ≠ k := by
      intro a ha
      obtain ⟨v, hv, rfl⟩ := List.mem_map.mp ha
      exact ((hmem v).mp hv).2
    rwa [time, time, hother a (hne a ha), hother b (hne b hb)]

end InsertionMap

end Federated.Library
