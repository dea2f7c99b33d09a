import Federated.Service.HttpConfinement

/-!
# The type of a file that is served

The type is found from the path of the request, and the file under the name behind the
root, which for a directory is that of its index. What is behind the last dot of the two
may differ.
-/

namespace Federated.Service

/-! ## Extensions -/

theorem extension_append_of_mem {front back : Bytes} (h : 46 ∈ back) :
    extension (front ++ back) = extension back := by
  have hstop : back.reverse.takeWhile (· ≠ 46) ≠ back.reverse := by
    intro hall
    have := List.takeWhile_eq_self_iff.mp hall 46 (by simpa using h)
    simp at this
  rw [extension, extension, if_pos h, if_pos (List.mem_append_right _ h), List.reverse_append,
    List.takeWhile_append, if_neg]
  intro hlength
  exact hstop ((List.takeWhile_prefix _).eq_of_length hlength)

theorem extension_append_of_notMem {front back : Bytes} (h : 46 ∉ back) :
    extension (front ++ back) = (extension front).map (· ++ back) := by
  have hall : ∀ c ∈ back.reverse, decide (c ≠ 46) = true :=
    Library.forall_ne_of_notMem (by simpa using h)
  by_cases hfront : 46 ∈ front
  · rw [extension, extension, if_pos (List.mem_append_left _ hfront), if_pos hfront,
      List.reverse_append, List.takeWhile_append_of_pos hall]
    simp
  · rw [extension, extension, if_neg (by simp [h, hfront]), if_neg hfront]
    rfl

theorem getMimeType_congr {a b : Bytes} (h : extension a = extension b) :
    getMimeType a = getMimeType b := by
  rw [getMimeType, getMimeType, h]

def octetStream : String := "application/octet-stream"

/-- The extension of a name is not listed. -/
def Unlisted (name : Bytes) : Prop := ∀ t ∈ mimeTypes, extension name ≠ some (ascii t.1)

theorem getMimeType_eq_octetStream_iff (name : Bytes) :
    getMimeType name = octetStream ↔ Unlisted name := by
  have hother : ∀ t ∈ mimeTypes, t.2 ≠ octetStream := by decide
  rw [getMimeType, Unlisted]
  cases hext : extension name with
  | none => simp [octetStream]
  | some ext =>
    cases hfind : mimeTypes.find? fun t => ext = ascii t.1 with
    | none =>
      dsimp only
      rw [hfind]
      simpa [octetStream] using hfind
    | some t =>
      have hmem := List.mem_of_find?_eq_some hfind
      have heq : ext = ascii t.1 := by simpa using List.find?_some hfind
      dsimp only
      rw [hfind]
      exact iff_of_false (hother t hmem) fun h => h t hmem (congrArg some heq)

theorem unlisted_of_notMem {name : Bytes} (h : 46 ∉ name) : Unlisted name := by
  intro t _
  rw [extension, if_neg h]
  exact nofun

/-- Behind a slash without a dot there is no listed extension. -/
theorem unlisted_append_slash {front back : Bytes} (h : 46 ∉ slash :: back) :
    Unlisted (front ++ slash :: back) := by
  have hslash : ∀ t ∈ mimeTypes, slash ∉ ascii t.1 := by decide
  intro t ht hext
  rw [extension_append_of_notMem h, Option.map_eq_some_iff] at hext
  obtain ⟨ext, -, happend⟩ := hext
  exact hslash t ht (happend ▸ by simp)

/-! ## The type of the target -/

/-- The index of a directory is a text, unless its name is cut off in front of the last letters
of its extension. -/
theorem getMimeType_index {name : Bytes} (h : name.length < 1023) :
    getMimeType ((name ++ ascii "/index.html").take 1023) =
      if name.length ≤ 1013 then "text/html" else octetStream := by
  rw [take_index h]
  have hdot {back : Bytes} (hmem : 46 ∈ slash :: back) :
      getMimeType (name ++ slash :: back) = getMimeType (slash :: back) :=
    getMimeType_congr (extension_append_of_mem hmem)
  split_ifs with hroom
  · have hcut : (ascii "index.html").take (1022 - name.length) = ascii "index.htm" ∨
        (ascii "index.html").take (1022 - name.length) = ascii "index.html" := by
      rcases (by omega : 1022 - name.length = 9 ∨ 10 ≤ 1022 - name.length) with heq | hle
      · exact .inl (by rw [heq]; decide)
      · exact .inr (List.take_of_length_le hle)
    rcases hcut with hcut | hcut
    · rw [hcut, hdot (by decide)]
      decide
    · rw [hcut, hdot (by decide)]
      decide
  · obtain ⟨k, hk, hshort⟩ : ∃ k, 1022 - name.length = k ∧ k < 9 := ⟨_, rfl, by omega⟩
    rw [hk]
    rcases Nat.lt_or_ge k 6 with hcut | hcut
    · have hno : ∀ k < 6, 46 ∉ slash :: (ascii "index.html").take k := by decide
      exact (getMimeType_eq_octetStream_iff _).mpr (unlisted_append_slash (hno k hcut))
    · have hmem : ∀ k < 9, 6 ≤ k → 46 ∈ slash :: (ascii "index.html").take k ∧
          getMimeType (slash :: (ascii "index.html").take k) = octetStream := by decide
      obtain ⟨hin, htype⟩ := hmem k hshort hcut
      rw [hdot hin, htype]

/-! ## What is served -/

variable {fs : FileSystem} {req : HttpRequest} {config : HttpServerConfig} {resp : HttpResponse}
  {opened : Option Bytes}

/-- A file that is read is the target, up to its size. -/
theorem httpReadFile_ok {root path : CharArray 512} {output read : Buffer}
    (h : httpReadFile fs root.str path.str output = (.ok, read, opened)) :
    ∃ file, opened = some (target fs root.str path.str) ∧
      fs.fopen (target fs root.str path.str) = some file ∧
      read.bytes = file.content.take file.size.toNat := by
  simp only [httpReadFile, str_fullPath] at h
  split at h
  · cases h
  · cases hopen : fs.fopen (target fs root.str path.str) with
    | none =>
      rw [hopen] at h
      cases h
    | some file =>
      rw [hopen] at h
      dsimp only at h
      split_ifs at h with hsize hread
      · cases h
      · cases h
      · simp only [Prod.mk.injEq, true_and] at h
        obtain ⟨hbytes, hopened⟩ := h
        refine ⟨file, hopened.symm, rfl, ?_⟩
        rw [← hbytes, Buffer.bytes, overwrite]
        simp

theorem httpHandleGet_of_ok {read : Buffer}
    (h : httpReadFile fs config.documentRoot.str req.path.str fileBuffer = (.ok, read, opened)) :
    httpHandleGet fs req config = (.of 200 "OK" (getMimeType req.path.str) read.bytes, opened) := by
  rw [httpHandleGet, h]

/-- What is served is a file that was read, with the type of the path. -/
theorem httpHandleGet_served (h : httpHandleGet fs req config = (resp, opened))
    (h200 : resp.statusCode = 200) :
    ∃ file, opened = some (target fs config.documentRoot.str req.path.str) ∧
      fs.fopen (target fs config.documentRoot.str req.path.str) = some file ∧
      resp.body = file.content.take file.size.toNat ∧
      resp.contentType = .fill 128 (ascii (getMimeType req.path.str)) := by
  rw [httpHandleGet] at h
  split at h
  · rename_i read _ hread
    rw [Prod.mk.injEq] at h
    obtain ⟨rfl, rfl⟩ := h
    obtain ⟨file, hopened, hfile, hbytes⟩ := httpReadFile_ok hread
    exact ⟨file, hopened, hfile, hbytes, rfl⟩
  · rw [Prod.mk.injEq] at h
    obtain ⟨rfl, -⟩ := h
    exact absurd h200 (by decide)

/-! ## Which types are those of the file -/

/-- The types that are given. -/
def mimeTexts : List String := octetStream :: mimeTypes.map Prod.snd

theorem getMimeType_mem (name : Bytes) : getMimeType name ∈ mimeTexts := by
  refine getMimeType_cases (p := (· ∈ mimeTexts)) (fun t ht => ?_) List.mem_cons_self name
  exact List.mem_cons_of_mem _ (List.mem_map_of_mem ht)

/-- The types are texts that fit the array, and are told apart. -/
theorem mimeTexts_spec : (∀ s ∈ mimeTexts, (CharArray.fill 128 (ascii s)).str = ascii s) ∧
    ∀ s ∈ mimeTexts, ∀ s' ∈ mimeTexts, ascii s = ascii s' → s = s' := by
  decide +kernel

/-- A path that is no directory has a dot, or no listed extension comes about behind the root. One
that is has the type of the index, whose name may be cut off. -/
def TypeAgrees (fs : FileSystem) (root path : Bytes) : Prop :=
  if fs.isDirectory (root ++ path) then
    getMimeType path = if (root ++ path).length ≤ 1013 then "text/html" else octetStream
  else 46 ∈ path ∨ Unlisted (root ++ path)

theorem typeAgrees_iff (fs : FileSystem) (root path : CharArray 512) :
    getMimeType path.str = getMimeType (target fs root.str path.str) ↔
      TypeAgrees fs root.str path.str := by
  rw [target, TypeAgrees]
  by_cases hdir : fs.isDirectory (root.str ++ path.str)
  · rw [if_pos hdir, if_pos hdir, getMimeType_index (length_append_lt root path)]
  · rw [if_neg hdir, if_neg hdir]
    by_cases hdot : 46 ∈ path.str
    · exact iff_of_true (getMimeType_congr (extension_append_of_mem hdot).symm) (.inl hdot)
    · have hpath := (getMimeType_eq_octetStream_iff path.str).mpr (unlisted_of_notMem hdot)
      rw [hpath, eq_comm, getMimeType_eq_octetStream_iff, or_iff_right hdot]

/-- A file that is served has its own type exactly if that of the path agrees with it. -/
theorem contentType_iff (h : httpHandleGet fs req config = (resp, opened))
    (h200 : resp.statusCode = 200) :
    (∃ name file, opened = some name ∧ fs.fopen name = some file ∧
        resp.body = file.content.take file.size.toNat ∧
        resp.contentType.str = ascii (getMimeType name)) ↔
      TypeAgrees fs config.documentRoot.str req.path.str := by
  obtain ⟨file, hopened, hfile, hbody, htype⟩ := httpHandleGet_served h h200
  rw [← typeAgrees_iff, htype, mimeTexts_spec.1 _ (getMimeType_mem _)]
  constructor
  · rintro ⟨name, -, hname, -, -, heq⟩
    obtain rfl : target fs config.documentRoot.str req.path.str = name :=
      Option.some.inj (hopened.symm.trans hname)
    exact mimeTexts_spec.2 _ (getMimeType_mem _) _ (getMimeType_mem _) heq
  · intro heq
    exact ⟨_, file, hopened, hfile, hbody, congrArg ascii heq⟩

/-- A file that is there and fits is read. -/
theorem httpReadFile_of_file {root path : CharArray 512} {output : Buffer} {content : Bytes}
    (hdots : ¬ dotDot <:+: path.str)
    (hfile : fs.fopen (target fs root.str path.str) = some ⟨content.length, content⟩)
    (hroom : content.length ≤ output.size) :
    httpReadFile fs root.str path.str output =
      (.ok, filled output content, some (target fs root.str path.str)) := by
  have hsize : ¬ ((content.length : Int) < 0 ∨ (content.length : Int) > output.size) := by omega
  simp only [httpReadFile, str_fullPath, if_neg hdots, hfile, if_neg hsize, Int.toNat_natCast,
    List.take_length]
  rw [if_neg (not_not.mpr rfl)]
  rfl

/-- A site whose root has an index and a file. -/
def siteFiles : FileSystem :=
  ⟨fun name => name = ascii "./www/", fun name =>
    if name = ascii "./www//index.html" ∨ name = ascii "./www/a.txt" then some ⟨2, ascii "hi"⟩
    else none⟩

def getRequest (path : String) : HttpRequest :=
  ⟨.fill 16 (ascii "GET"), .fill 512 (ascii path), .fill 16 (ascii "HTTP/1.1"), .empty 2048⟩

/-- The files of the site are served with the type of the path. -/
theorem httpHandleGet_site {path : String} {name : Bytes}
    (hdots : ¬ dotDot <:+: (getRequest path).path.str)
    (htarget : target siteFiles wwwConfig.documentRoot.str (getRequest path).path.str = name)
    (hname : name = ascii "./www//index.html" ∨ name = ascii "./www/a.txt") :
    httpHandleGet siteFiles (getRequest path) wwwConfig =
      (.of 200 "OK" (getMimeType (getRequest path).path.str) (ascii "hi"), some name) := by
  have hfile : siteFiles.fopen (target siteFiles wwwConfig.documentRoot.str
      (getRequest path).path.str) = some ⟨(ascii "hi").length, ascii "hi"⟩ := by
    rw [htarget]
    exact if_pos hname
  have hroom : (ascii "hi").length ≤ fileBuffer.size := by
    rw [fileBuffer, Buffer.size_ofBlock, List.length_replicate]
    decide
  rw [httpHandleGet_of_ok (httpReadFile_of_file hdots hfile hroom), bytes_filled, htarget]

theorem contentType_text :
    (∃ name file, some (ascii "./www/a.txt") = some name ∧ siteFiles.fopen name = some file ∧
        (HttpResponse.of 200 "OK" "text/plain" (ascii "hi")).body =
          file.content.take file.size.toNat ∧
        (HttpResponse.of 200 "OK" "text/plain" (ascii "hi")).contentType.str =
          ascii (getMimeType name)) ↔
      TypeAgrees siteFiles wwwConfig.documentRoot.str (getRequest "/a.txt").path.str :=
  contentType_iff (httpHandleGet_site (by decide) (by decide) (.inr rfl)) rfl

/-- The index of the root is not served as a text. -/
theorem not_contentType_index :
    ∃ resp, httpHandleGet siteFiles (getRequest "/") wwwConfig =
        (resp, some (ascii "./www//index.html")) ∧ resp.statusCode = 200 ∧
      resp.contentType.str ≠ ascii (getMimeType (ascii "./www//index.html")) :=
  ⟨_, httpHandleGet_site (by decide) (by decide) (.inl rfl), rfl, by decide⟩

end Federated.Service
