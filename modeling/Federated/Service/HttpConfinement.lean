import Federated.Service.Http
import Federated.Library.Paths

/-!
# Files below the document root

Which requests open no file but one below the document root. The path is put
behind the root as it stands, so it must bring the slash between them itself.
-/

namespace Federated.Service

open Library

def slash : UInt8 := 47

/-! ## The name of the file -/

/-- The file that a path without `..` is looked up under. -/
def target (fs : FileSystem) (root path : Bytes) : Bytes :=
  if fs.isDirectory (root ++ path) then (root ++ path ++ ascii "/index.html").take 1023
  else root ++ path

variable {fs : FileSystem} {root path : CharArray 512}

theorem str_fill_append (root path : CharArray 512) :
    (CharArray.fill 1024 (root.str ++ path.str)).str = root.str ++ path.str := by
  have hroot := root.length_str_le
  have hpath := path.length_str_le
  have hnul : 0 ∉ root.str ++ path.str := by
    rw [List.mem_append, not_or]
    exact ⟨root.zero_notMem_str, path.zero_notMem_str⟩
  rw [CharArray.str_fill 1024 hnul, List.take_of_length_le]
  rw [List.length_append]
  omega

theorem str_fill_index (root path : CharArray 512) :
    (CharArray.fill 1024 (root.str ++ path.str ++ ascii "/index.html")).str =
      (root.str ++ path.str ++ ascii "/index.html").take 1023 := by
  apply CharArray.str_fill
  rw [List.mem_append, List.mem_append, not_or, not_or]
  exact ⟨⟨root.zero_notMem_str, path.zero_notMem_str⟩, by decide⟩

/-- The array holds the target. -/
theorem str_fullPath (fs : FileSystem) (root path : CharArray 512) :
    (if fs.isDirectory (CharArray.fill 1024 (root.str ++ path.str)).str then
      CharArray.fill 1024 (root.str ++ path.str ++ ascii "/index.html")
      else CharArray.fill 1024 (root.str ++ path.str)).str = target fs root.str path.str := by
  rw [str_fill_append, target]
  split
  · exact str_fill_index root path
  · exact str_fill_append root path

/-- A path without `..` opens its target, if there is such a file. -/
theorem httpReadFile_opened (fs : FileSystem) (root path : CharArray 512) (output : Buffer) :
    (httpReadFile fs root.str path.str output).2.2 =
      if dotDot <:+: path.str ∨ fs.fopen (target fs root.str path.str) = none then none
      else some (target fs root.str path.str) := by
  by_cases hdots : dotDot <:+: path.str
  · simp [httpReadFile, hdots]
  · simp only [httpReadFile, str_fullPath, hdots, if_false, false_or]
    cases hopen : fs.fopen (target fs root.str path.str) with
    | none => simp
    | some f =>
      simp only [reduceCtorEq, if_false]
      split
      · rfl
      · split <;> rfl

theorem httpHandleGet_opened (fs : FileSystem) (req : HttpRequest) (config : HttpServerConfig) :
    (httpHandleGet fs req config).2 =
      (httpReadFile fs config.documentRoot.str req.path.str fileBuffer).2.2 := by
  unfold httpHandleGet
  split
  case h_1 h => rw [h]
  case h_2 h => rw [h]

/-- A method that files are served for. -/
def HttpRequest.Reads (req : HttpRequest) : Prop :=
  req.method.str = ascii "GET" ∨ req.method.str = ascii "HEAD"

theorem httpServe_opened (fs : FileSystem) (config : HttpServerConfig) (req : HttpRequest) :
    (req.Reads → (httpServe fs config req).2 =
      (httpReadFile fs config.documentRoot.str req.path.str fileBuffer).2.2) ∧
    (¬ req.Reads → (httpServe fs config req).2 = none) := by
  have hget := httpHandleGet_opened fs req config
  unfold httpServe HttpRequest.Reads
  split
  case isTrue h => simp [h, hget]
  case isFalse h =>
    split
    case isTrue h' => simp [h', httpHandleHead, hget]
    case isFalse h' => simp [h, h']

/-- A request opens what serving it opens. -/
theorem handleRequest_opens_iff {config : HttpServerConfig} {request : Bytes} {response : Buffer}
    {name : Bytes} :
    (∃ code output, handleRequest fs config request response = .ok (code, output, some name)) ↔
      ∃ req, readHttpRequest request = .ok (some req) ∧
        (httpServe fs config req).2 = some name := by
  unfold handleRequest
  cases readHttpRequest request with
  | error fault => simp [bind, Except.bind]
  | ok req =>
    cases req with
    | none => simp [pure, Except.pure]
    | some req => simp [pure, Except.pure]

/-! ## Where it lies -/

theorem not_dotDot_index (k : Nat) : ¬ dotDot <:+: (ascii "index.html").take k := by
  intro h
  have hindex := h.trans (List.take_prefix _ _).isInfix
  exact absurd hindex (by decide)

/-- The name of the index file is cut off behind its slash at the earliest. -/
theorem take_index {name : Bytes} (h : name.length < 1023) :
    (name ++ ascii "/index.html").take 1023 =
      name ++ slash :: (ascii "index.html").take (1022 - name.length) := by
  obtain ⟨k, hk⟩ : ∃ k, 1023 - name.length = k + 1 := ⟨1022 - name.length, by omega⟩
  have hk' : 1022 - name.length = k := by omega
  rw [List.take_append, List.take_of_length_le (by omega), hk, hk']
  rfl

theorem length_append_lt (root path : CharArray 512) : (root.str ++ path.str).length < 1023 := by
  have hroot := root.length_str_le
  have hpath := path.length_str_le
  rw [List.length_append]
  omega

/-- Behind a leading slash and without `..`, the target is below the root. -/
theorem below_target_of_slash (hdots : ¬ dotDot <:+: path.str)
    (hslash : path.str.head? = some slash) :
    Below slash dotDot root.str (target fs root.str path.str) := by
  have hlen := length_append_lt root path
  obtain ⟨rest, hrest⟩ := List.head?_eq_some_iff.mp hslash
  have hdots' : ¬ dotDot <:+: rest := by
    intro h
    exact hdots (hrest ▸ h.trans (List.suffix_cons _ _).isInfix)
  rw [target]
  split
  · rw [take_index hlen, hrest, List.append_assoc, List.cons_append]
    exact below_append_append hdots' (not_dotDot_index _)
  · rw [hrest]
    exact below_append hdots'

/-- The empty path leads to the index of a root that is a directory. -/
theorem below_target_of_nil (hpath : path.str = []) (hdir : fs.isDirectory root.str = true) :
    Below slash dotDot root.str (target fs root.str path.str) := by
  have hlen := length_append_lt root path
  rw [target, if_pos (by simpa [hpath] using hdir), take_index hlen, hpath, List.append_nil]
  exact below_append (not_dotDot_index _)

theorem not_below_target (hslash : path.str.head? ≠ some slash)
    (hnil : ¬ (path.str = [] ∧ fs.isDirectory root.str = true)) :
    ¬ Below slash dotDot root.str (target fs root.str path.str) := by
  have hlen := length_append_lt root path
  rw [target]
  split
  case isTrue hdir =>
    have hne : path.str ≠ [] := by
      intro h
      rw [h, List.append_nil] at hdir
      exact hnil ⟨h, hdir⟩
    rw [take_index hlen, List.append_assoc]
    apply not_below_append
    rwa [List.head?_append_of_ne_nil _ hne]
  case isFalse => exact not_below_append hslash

/-! ## Which requests stay below the root -/

/-- Every file a request opens is below the document root. -/
def Confined (fs : FileSystem) (config : HttpServerConfig) (request : Bytes) (response : Buffer) :
    Prop :=
  ∀ code output name, handleRequest fs config request response = .ok (code, output, some name) →
    Below slash dotDot config.documentRoot.str name

/-- The path starts with a slash, is refused, is empty with a directory as the root, or names
no file that can be opened. -/
def StaysBelow (fs : FileSystem) (root path : Bytes) : Prop :=
  path.head? = some slash ∨ dotDot <:+: path ∨ (path = [] ∧ fs.isDirectory root = true) ∨
    fs.fopen (target fs root path) = none

/-- A request for a file is confined to the document root exactly if its path stays below. -/
theorem confined_iff (fs : FileSystem) (config : HttpServerConfig) (request : Bytes)
    (response : Buffer) : Confined fs config request response ↔
      ∀ req, readHttpRequest request = .ok (some req) → req.Reads →
        StaysBelow fs config.documentRoot.str req.path.str := by
  constructor
  · intro h req hreq hreads
    by_contra hstays
    simp only [StaysBelow, not_or] at hstays
    obtain ⟨hslash, hdots, hnil, hopen⟩ := hstays
    have hserve := (httpServe_opened fs config req).1 hreads
    rw [httpReadFile_opened, if_neg (by tauto)] at hserve
    obtain ⟨code, output, hhandle⟩ := handleRequest_opens_iff.mpr ⟨req, hreq, hserve⟩
    exact not_below_target hslash hnil (h code output _ hhandle)
  · intro h code output name hhandle
    obtain ⟨req, hreq, hserve⟩ := handleRequest_opens_iff.mp ⟨code, output, hhandle⟩
    have hserved := httpServe_opened fs config req
    by_cases hreads : req.Reads
    · rw [hserved.1 hreads, httpReadFile_opened] at hserve
      split at hserve
      case isTrue => simp at hserve
      case isFalse hopens =>
        rw [not_or] at hopens
        obtain rfl := Option.some_inj.mp hserve
        rcases h req hreq hreads with hslash | hdots | ⟨hpath, hdir⟩ | hopen
        · exact below_target_of_slash hopens.1 hslash
        · exact absurd hdots hopens.1
        · exact below_target_of_nil hpath hdir
        · exact absurd hopen hopens.2
    · simp [hserved.2 hreads] at hserve

/-- A file next to the root whose name starts with the name of the root. -/
def keyFiles : FileSystem :=
  ⟨fun _ => false, fun name => if name = ascii "./www-private/key" then some ⟨0, []⟩ else none⟩

def wwwConfig : HttpServerConfig := ⟨.fill 512 (ascii "./www")⟩

/-- The path `-private/key` leads out of the root `./www`. -/
theorem not_confined_sibling : ¬ Confined keyFiles wwwConfig
    (ascii "GET -private/key HTTP/1.1\r\n\r\n") (.ofBlock (List.replicate 512 0)) := by
  intro h
  obtain ⟨req, hreq, hmethod, hpath⟩ : ∃ req,
      readHttpRequest (ascii "GET -private/key HTTP/1.1\r\n\r\n") = .ok (some req) ∧
        req.method.str = ascii "GET" ∧ req.path.str = ascii "-private/key" :=
    ⟨_, rfl, by decide, by decide⟩
  have hserve := (httpServe_opened keyFiles wwwConfig req).1 (.inl hmethod)
  have htarget : target keyFiles wwwConfig.documentRoot.str req.path.str =
      ascii "./www-private/key" := by
    rw [hpath]
    decide
  have hdots : ¬ dotDot <:+: req.path.str := by
    rw [hpath]
    decide
  rw [httpReadFile_opened, htarget, if_neg (by simp [hdots, keyFiles])] at hserve
  obtain ⟨code, output, hhandle⟩ := handleRequest_opens_iff.mpr ⟨req, hreq, hserve⟩
  have hbelow := h code output _ hhandle
  have hsplit : ascii "./www-private/key" = wwwConfig.documentRoot.str ++ ascii "-private/key" := by
    decide
  rw [hsplit] at hbelow
  exact not_below_append (by decide) hbelow

end Federated.Service
