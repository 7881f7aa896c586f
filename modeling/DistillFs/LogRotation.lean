import Mathlib

/-!
# Rotating log files

A `RotatingFileWriter` appends to a log file. When a buffer would take the file beyond its limit,
the writer renames the file to `.1`, and what was `.1` to `.2`, deletes what was `.2`, and goes on
in a new file. Its clones share the writer and take its lock, so their writes come one after another
in some order.

The model has the directory entries and the files behind them: a file that is open stays the same
file when it is renamed. File operations succeed, and a write stores the whole buffer.

## Main definitions

* `LogDir`: the directory, with `removeFile`, `rename`, `openAppend` and `append`.
* `RotatingFileWriter`, `RotatingFileWriter.new`, `RotatingFileWriter.write`, `rotateFiles`.
* `LogKept`: what the files hold after some writes.

## Main results

* `names_rotateFiles`: a rotation moves each file on by one name.
* `RotatingFileWriter.logKept`: the files hold the end of the log, in whole buffers.
-/

namespace DistillFs

def maxLogSize : ℕ := 10 * 1024 * 1024

def maxLogFiles : ℕ := 3

/-- A directory: its entries and the files. Each entry has a file of its own. -/
@[ext] structure LogDir where
  names : String → Option ℕ
  data : ℕ → List UInt8
  /-- The files from here on do not exist yet. -/
  next : ℕ
  names_lt : ∀ name file, names name = some file → file < next
  names_inj : ∀ a b file, names a = some file → names b = some file → a = b

namespace LogDir

variable (dir : LogDir)

def pathExists (name : String) : Bool := (dir.names name).isSome

/-- The entry of the name is `entry`, which belongs to no other name. -/
def setName (name : String) (entry : Option ℕ)
    (hlt : ∀ file, entry = some file → file < dir.next)
    (hother : ∀ a file, entry = some file → dir.names a = some file → a = name) : LogDir where
  names := Function.update dir.names name entry
  data := dir.data
  next := dir.next
  names_lt a file h := by
    by_cases ha : a = name
    · rw [ha, Function.update_self] at h
      exact hlt file h
    · rw [Function.update_of_ne ha] at h
      exact dir.names_lt a file h
  names_inj a b file ha hb := by
    by_cases hna : a = name
    · by_cases hnb : b = name
      · rw [hna, hnb]
      · rw [hna, Function.update_self] at ha
        rw [Function.update_of_ne hnb] at hb
        exact hna.trans (hother b file ha hb).symm
    · rw [Function.update_of_ne hna] at ha
      by_cases hnb : b = name
      · rw [hnb, Function.update_self] at hb
        exact (hother a file hb ha).trans hnb.symm
      · rw [Function.update_of_ne hnb] at hb
        exact dir.names_inj a b file ha hb

def removeFile (name : String) : LogDir :=
  dir.setName name none (fun _ h => by cases h) fun _ _ h => by cases h

theorem names_removeFile (name : String) :
    (dir.removeFile name).names = Function.update dir.names name none := rfl

/-- The name `dst` gets the file of `src`, which loses its name. -/
def rename (src dst : String) : LogDir :=
  (dir.removeFile src).setName dst (dir.names src) (fun file h => dir.names_lt src file h)
    fun a file hsrc ha => by
      rw [names_removeFile] at ha
      by_cases has : a = src
      · rw [has, Function.update_self] at ha
        cases ha
      · rw [Function.update_of_ne has] at ha
        exact absurd (dir.names_inj a src file ha hsrc) has

/-- The name gets a new, empty file. -/
def create (name : String) : LogDir where
  names := Function.update dir.names name (some dir.next)
  data := Function.update dir.data dir.next []
  next := dir.next + 1
  names_lt a file h := by
    by_cases ha : a = name
    · rw [ha, Function.update_self] at h
      exact (Option.some.inj h) ▸ Nat.lt_succ_self _
    · rw [Function.update_of_ne ha] at h
      exact Nat.lt_succ_of_lt (dir.names_lt a file h)
  names_inj a b file ha hb := by
    have hold : ∀ c, c ≠ name → Function.update dir.names name (some dir.next) c = some file →
        file < dir.next := fun c hc h => by
      rw [Function.update_of_ne hc] at h
      exact dir.names_lt c file h
    have hnew : Function.update dir.names name (some dir.next) name = some file →
        file = dir.next := fun h => by
      rw [Function.update_self] at h
      exact (Option.some.inj h).symm
    by_cases hna : a = name
    · by_cases hnb : b = name
      · rw [hna, hnb]
      · exact absurd (hold b hnb hb) (by rw [hnew (hna ▸ ha)]; exact lt_irrefl _)
    · by_cases hnb : b = name
      · exact absurd (hold a hna ha) (by rw [hnew (hnb ▸ hb)]; exact lt_irrefl _)
      · rw [Function.update_of_ne hna] at ha
        rw [Function.update_of_ne hnb] at hb
        exact dir.names_inj a b file ha hb

/-- The file of the name, opened to append; it is created if there is none. -/
def openAppend (name : String) : ℕ × LogDir :=
  match dir.names name with
  | some file => (file, dir)
  | none => (dir.next, dir.create name)

def append (file : ℕ) (buf : List UInt8) : LogDir :=
  { dir with data := Function.update dir.data file (dir.data file ++ buf) }

end LogDir

/-- The name of a rotated log file; the base path has a file name. -/
def rotatedPath (basePath : String) (index : ℕ) : String := basePath ++ "." ++ toString index

def openOrCreateFile (path : String) (dir : LogDir) : (ℕ × ℕ) × LogDir :=
  let (file, dir) := dir.openAppend path
  ((file, (dir.data file).length), dir)

def rotateFiles (basePath : String) (dir : LogDir) : LogDir :=
  let oldest := rotatedPath basePath (maxLogFiles - 1)
  let dir := if dir.pathExists oldest then dir.removeFile oldest else dir
  let dir := (List.range' 1 (maxLogFiles - 2)).reverse.foldl (fun dir i =>
    let src := rotatedPath basePath i
    let dst := rotatedPath basePath (i + 1)
    if dir.pathExists src then dir.rename src dst else dir) dir
  let firstRotation := rotatedPath basePath 1
  if dir.pathExists basePath then dir.rename basePath firstRotation else dir

/-- The writer that all clones share. -/
structure RotatingFileWriter where
  basePath : String
  /-- The open file. -/
  currentFile : ℕ
  currentSize : ℕ

namespace RotatingFileWriter

def new (path : String) (dir : LogDir) : RotatingFileWriter × LogDir :=
  let ((currentFile, currentSize), dir) := openOrCreateFile path dir
  (⟨path, currentFile, currentSize⟩, dir)

/-- `write` of the whole buffer; the answer is its length. -/
def write (w : RotatingFileWriter) (buf : List UInt8) (dir : LogDir) :
    ℕ × RotatingFileWriter × LogDir :=
  let (w, dir) :=
    if maxLogSize < w.currentSize + buf.length then
      let dir := rotateFiles w.basePath dir
      let ((newFile, newSize), dir) := openOrCreateFile w.basePath dir
      ({ w with currentFile := newFile, currentSize := newSize }, dir)
    else (w, dir)
  let written := buf.length
  (written, { w with currentSize := w.currentSize + written }, dir.append w.currentFile buf)

/-- The writes of all clones, in the order in which they take the lock. -/
def writeAll (w : RotatingFileWriter) (dir : LogDir) (bufs : List (List UInt8)) :
    RotatingFileWriter × LogDir :=
  bufs.foldl (fun s buf => (s.1.write buf s.2).2) (w, dir)

end RotatingFileWriter

/-! ### What the log holds -/

/-- The names of the log files, from the newest one on. -/
def logName (basePath : String) : ℕ → String
  | 0 => basePath
  | i + 1 => rotatedPath basePath (i + 1)

/-- The files of the log, from the oldest one on. -/
def logFiles (basePath : String) (dir : LogDir) : List ℕ :=
  (List.range maxLogFiles).reverse.filterMap fun i => dir.names (logName basePath i)

/-- What the files of the log hold together. -/
def logContent (basePath : String) (dir : LogDir) : List UInt8 :=
  (logFiles basePath dir).flatMap dir.data

/-- What went into a file: what was found there if it existed at first, and the buffers. -/
def pieces (dir : LogDir) (bufs : ℕ → List (List UInt8)) (file : ℕ) : List (List UInt8) :=
  (if file < dir.next then [dir.data file] else []) ++ bufs file

/-- From `dir` on, with the buffers `written`, the log has come to what is in `dir'`, where `bufs`
lists the buffers in each file. -/
structure LogKept (basePath : String) (dir dir' : LogDir) (written : List (List UInt8))
    (bufs : ℕ → List (List UInt8)) : Prop where
  /-- Each file of the log holds whole buffers. -/
  data_eq : ∀ file ∈ logFiles basePath dir', dir'.data file = (pieces dir bufs file).flatten
  /-- Together these are the last ones that were there at first or written. -/
  suffix : (logFiles basePath dir').flatMap (pieces dir bufs) <:+
    (logFiles basePath dir).map dir.data ++ written
  /-- A file that the writer created keeps to the limit or holds one buffer. -/
  size_le : ∀ file ∈ logFiles basePath dir', dir.next ≤ file →
    (dir'.data file).length ≤ maxLogSize ∨ (bufs file).length = 1
  /-- Nothing else in the directory changes. -/
  others : ∀ name, (∀ i < maxLogFiles, name ≠ logName basePath i) →
    dir'.names name = dir.names name ∧ ∀ file ∈ dir.names name, dir'.data file = dir.data file
  next_le : dir.next ≤ dir'.next
  fresh : ∀ file, dir'.next ≤ file → bufs file = []

section Names

variable {basePath : String}

theorem toString_injective : Function.Injective (fun i : ℕ => toString i) := fun i j h => by
  have hdigits := congrArg (fun s : String => Nat.ofDigitChars 10 s.toList 0) h
  simpa [Nat.toString_eq_ofList_toDigits] using hdigits

theorem rotatedPath_injective (basePath : String) :
    Function.Injective (rotatedPath basePath) := fun i j h => by
  have hlist := congrArg String.toList h
  simp only [rotatedPath, String.toList_append] at hlist
  exact toString_injective (String.toList_inj.mp (List.append_cancel_left hlist))

theorem rotatedPath_ne (basePath : String) (index : ℕ) : rotatedPath basePath index ≠ basePath := by
  intro h
  have hlen := congrArg String.length h
  rw [rotatedPath, String.length_append, String.length_append] at hlen
  have hdot : ".".length = 1 := rfl
  omega

theorem logName_injective (basePath : String) : Function.Injective (logName basePath) := by
  intro i j h
  cases i with
  | zero =>
    cases j with
    | zero => rfl
    | succ j => exact absurd h.symm (rotatedPath_ne basePath (j + 1))
  | succ i =>
    cases j with
    | zero => exact absurd h (rotatedPath_ne basePath (i + 1))
    | succ j => exact rotatedPath_injective basePath h

end Names

section Rotation

variable {basePath : String} {dir : LogDir}

theorem names_removeFile_of_pathExists (name : String) :
    (if dir.pathExists name then dir.removeFile name else dir).names =
      Function.update dir.names name none := by
  split_ifs with h
  · rfl
  · have hnone : dir.names name = none := by simpa [LogDir.pathExists] using h
    exact (Function.update_eq_self_iff.mpr hnone.symm).symm

/-- A file moves to a name that is free. -/
theorem names_rename_of_pathExists {src dst : String} (hdst : dir.names dst = none) :
    (if dir.pathExists src then dir.rename src dst else dir).names =
      Function.update (Function.update dir.names src none) dst (dir.names src) := by
  split_ifs with h
  · rfl
  · have hnone : dir.names src = none := by simpa [LogDir.pathExists] using h
    have hsrc : Function.update dir.names src none = dir.names :=
      Function.update_eq_self_iff.mpr hnone.symm
    rw [hnone, hsrc]
    exact (Function.update_eq_self_iff.mpr hdst.symm).symm

/-- A rotation in one equation. -/
theorem rotateFiles_names (basePath : String) (dir : LogDir) :
    (rotateFiles basePath dir).names = fun name =>
      if name = logName basePath 0 then none
      else if name = logName basePath 1 then dir.names (logName basePath 0)
      else if name = logName basePath 2 then dir.names (logName basePath 1)
      else dir.names name := by
  have h01 : logName basePath 0 ≠ logName basePath 1 := (logName_injective basePath).ne (by decide)
  have h02 : logName basePath 0 ≠ logName basePath 2 := (logName_injective basePath).ne (by decide)
  have h12 : logName basePath 1 ≠ logName basePath 2 := (logName_injective basePath).ne (by decide)
  let dir₁ :=
    if dir.pathExists (logName basePath 2) then dir.removeFile (logName basePath 2) else dir
  let dir₂ := if dir₁.pathExists (logName basePath 1) then
    dir₁.rename (logName basePath 1) (logName basePath 2) else dir₁
  have h₁ : dir₁.names = Function.update dir.names (logName basePath 2) none :=
    names_removeFile_of_pathExists _
  have h₂ : dir₂.names = Function.update (Function.update dir₁.names (logName basePath 1) none)
      (logName basePath 2) (dir₁.names (logName basePath 1)) :=
    names_rename_of_pathExists (by rw [h₁, Function.update_self])
  have h₂1 : dir₂.names (logName basePath 1) = none := by
    rw [h₂, Function.update_of_ne h12, Function.update_self]
  have h₃ : (rotateFiles basePath dir).names =
      Function.update (Function.update dir₂.names (logName basePath 0) none) (logName basePath 1)
        (dir₂.names (logName basePath 0)) := names_rename_of_pathExists h₂1
  funext name
  rw [h₃, h₂, h₁]
  by_cases h0 : name = logName basePath 0
  · simp [h0, h01]
  · by_cases h1 : name = logName basePath 1
    · simp [h1, h01, h01.symm, h02, h12]
    · by_cases h2 : name = logName basePath 2
      · simp [h2, h02.symm, h12.symm, h12]
      · simp [h0, h1, h2]

/-- A rotation leaves the files as they are. -/
theorem rotateFiles_data (basePath : String) (dir : LogDir) :
    (rotateFiles basePath dir).data = dir.data ∧ (rotateFiles basePath dir).next = dir.next := by
  have hremove : ∀ (d : LogDir) name,
      (if d.pathExists name then d.removeFile name else d).data = d.data ∧
      (if d.pathExists name then d.removeFile name else d).next = d.next := fun d name => by
    split_ifs <;> exact ⟨rfl, rfl⟩
  have hrename : ∀ (d : LogDir) src dst,
      (if d.pathExists src then d.rename src dst else d).data = d.data ∧
      (if d.pathExists src then d.rename src dst else d).next = d.next := fun d src dst => by
    split_ifs <;> exact ⟨rfl, rfl⟩
  constructor
  · exact (hrename _ _ _).1.trans ((hrename _ _ _).1.trans (hremove _ _).1)
  · exact (hrename _ _ _).2.trans ((hrename _ _ _).2.trans (hremove _ _).2)

end Rotation

/-! ### The steps of a write -/

section Kept

variable {basePath : String} {dir dir' : LogDir} {written : List (List UInt8)}
  {bufs : ℕ → List (List UInt8)}

theorem mem_logFiles {file : ℕ} : file ∈ logFiles basePath dir ↔
    ∃ i < maxLogFiles, dir.names (logName basePath i) = some file := by
  rw [logFiles, List.mem_filterMap]
  simp only [List.mem_reverse, List.mem_range]

theorem logFiles_eq (basePath : String) (dir : LogDir) : logFiles basePath dir =
    (dir.names (logName basePath 2)).toList ++ (dir.names (logName basePath 1)).toList ++
      (dir.names (logName basePath 0)).toList := by
  have hrange : (List.range maxLogFiles).reverse = [2, 1, 0] := rfl
  rw [logFiles, List.filterMap_eq_flatMap_toList, hrange]
  simp only [List.flatMap_cons, List.flatMap_nil, List.append_nil, List.append_assoc]

/-- A rotation keeps all files but the oldest one. -/
theorem logFiles_rotateFiles : logFiles basePath (rotateFiles basePath dir) <:+
    logFiles basePath dir := by
  have h01 : logName basePath 1 ≠ logName basePath 0 := (logName_injective basePath).ne (by decide)
  have h02 : logName basePath 2 ≠ logName basePath 0 := (logName_injective basePath).ne (by decide)
  have h12 : logName basePath 2 ≠ logName basePath 1 := (logName_injective basePath).ne (by decide)
  rw [logFiles_eq, logFiles_eq, rotateFiles_names]
  simp only [if_neg h02, if_neg h12, if_neg h01, if_true]
  rw [Option.toList_none, List.append_nil, List.append_assoc]
  exact List.suffix_append _ _

theorem LogKept.rotateFiles (h : LogKept basePath dir dir' written bufs) :
    LogKept basePath dir (rotateFiles basePath dir') written bufs := by
  obtain ⟨hdata, hnext⟩ := rotateFiles_data basePath dir'
  have hsub : logFiles basePath (DistillFs.rotateFiles basePath dir') <:+ logFiles basePath dir' :=
    logFiles_rotateFiles
  constructor
  case data_eq =>
    intro file hfile
    rw [hdata]
    exact h.data_eq file (hsub.subset hfile)
  case suffix =>
    obtain ⟨oldest, hold⟩ := hsub
    refine List.IsSuffix.trans ?_ h.suffix
    rw [← hold, List.flatMap_append]
    exact List.suffix_append _ _
  case size_le =>
    intro file hfile hnew
    rw [hdata]
    exact h.size_le file (hsub.subset hfile) hnew
  case others =>
    intro name hname
    rw [hdata, rotateFiles_names]
    dsimp only
    rw [if_neg (hname 0 (by decide)), if_neg (hname 1 (by decide)), if_neg (hname 2 (by decide))]
    exact h.others name hname
  case next_le =>
    rw [hnext]
    exact h.next_le
  case fresh =>
    rw [hnext]
    exact h.fresh

theorem openAppend_of_none {name : String} (h : dir.names name = none) :
    dir.openAppend name = (dir.next, dir.create name) := by
  rw [LogDir.openAppend, h]

theorem names_openAppend (dir : LogDir) (name : String) :
    (dir.openAppend name).2.names name = some (dir.openAppend name).1 := by
  rw [LogDir.openAppend]
  cases hname : dir.names name with
  | some file => exact hname
  | none => exact Function.update_self ..

/-- A new file of the name is the newest one. -/
theorem logFiles_create (hnone : dir.names (logName basePath 0) = none) :
    logFiles basePath (dir.create (logName basePath 0)) = logFiles basePath dir ++ [dir.next] := by
  have hnames : (dir.create (logName basePath 0)).names =
      Function.update dir.names (logName basePath 0) (some dir.next) := rfl
  have h1 : logName basePath 1 ≠ logName basePath 0 := (logName_injective basePath).ne (by decide)
  have h2 : logName basePath 2 ≠ logName basePath 0 := (logName_injective basePath).ne (by decide)
  rw [logFiles_eq, logFiles_eq, hnames, Function.update_of_ne h1, Function.update_of_ne h2,
    Function.update_self, hnone, Option.toList_none, List.append_nil]
  rfl

theorem LogKept.create (h : LogKept basePath dir dir' written bufs)
    (hnone : dir'.names (logName basePath 0) = none) :
    LogKept basePath dir (dir'.create (logName basePath 0)) written bufs := by
  have hnames : (dir'.create (logName basePath 0)).names =
      Function.update dir'.names (logName basePath 0) (some dir'.next) := rfl
  have hlog := logFiles_create hnone
  have hpieces : pieces dir bufs dir'.next = [] := by
    rw [pieces, if_neg h.next_le.not_gt, h.fresh _ le_rfl]
    rfl
  have hnew : (dir'.create (logName basePath 0)).data dir'.next = [] := Function.update_self ..
  have hold : ∀ name file, dir'.names name = some file →
      (dir'.create (logName basePath 0)).data file = dir'.data file := fun name file hfile =>
    Function.update_of_ne (dir'.names_lt name file hfile).ne _ _
  have hmem : ∀ file ∈ logFiles basePath dir',
      (dir'.create (logName basePath 0)).data file = dir'.data file := fun file hfile => by
    obtain ⟨i, -, hi⟩ := mem_logFiles.mp hfile
    exact hold _ file hi
  constructor
  case data_eq =>
    intro file hfile
    rw [hlog, List.mem_append, List.mem_singleton] at hfile
    rcases hfile with hfile | rfl
    · rw [hmem file hfile]
      exact h.data_eq file hfile
    · rw [hnew, hpieces]
      rfl
  case suffix =>
    rw [hlog, List.flatMap_append, List.flatMap_singleton, hpieces, List.append_nil]
    exact h.suffix
  case size_le =>
    intro file hfile hcreated
    rw [hlog, List.mem_append, List.mem_singleton] at hfile
    rcases hfile with hfile | rfl
    · rw [hmem file hfile]
      exact h.size_le file hfile hcreated
    · rw [hnew]
      exact Or.inl (Nat.zero_le _)
  case others =>
    intro name hname
    obtain ⟨heq, hdata⟩ := h.others name hname
    rw [hnames, Function.update_of_ne (hname 0 (by decide))]
    refine ⟨heq, fun file hfile => ?_⟩
    rw [hold name file (heq.trans hfile)]
    exact hdata file hfile
  case next_le =>
    exact h.next_le.trans (Nat.le_succ _)
  case fresh =>
    exact fun file hfile => h.fresh file ((Nat.le_succ _).trans hfile)

theorem LogKept.openAppend (h : LogKept basePath dir dir' written bufs) :
    LogKept basePath dir (dir'.openAppend basePath).2 written bufs := by
  rw [LogDir.openAppend]
  cases hname : dir'.names basePath with
  | some file => exact h
  | none => exact h.create hname

theorem pieces_update_self {file : ℕ} (buf : List UInt8) :
    pieces dir (Function.update bufs file (bufs file ++ [buf])) file =
      pieces dir bufs file ++ [buf] := by
  rw [pieces, pieces, Function.update_self, List.append_assoc]

theorem pieces_update_of_ne {f file : ℕ} (h : f ≠ file) (l : List (List UInt8)) :
    pieces dir (Function.update bufs file l) f = pieces dir bufs f := by
  rw [pieces, pieces, Function.update_of_ne h]

/-- The buffer goes to the end of the newest file. -/
theorem LogKept.append (h : LogKept basePath dir dir' written bufs) {file : ℕ}
    (hfile : dir'.names (logName basePath 0) = some file) (buf : List UInt8)
    (hsize : (dir'.data file).length + buf.length ≤ maxLogSize ∨ bufs file = []) :
    LogKept basePath dir (dir'.append file buf) (written ++ [buf])
      (Function.update bufs file (bufs file ++ [buf])) := by
  set older := (dir'.names (logName basePath 2)).toList ++
    (dir'.names (logName basePath 1)).toList with holder
  have hlog : logFiles basePath dir' = older ++ [file] := by
    rw [logFiles_eq, hfile]
    rfl
  have hnot : ∀ i, i ≠ 0 → dir'.names (logName basePath i) ≠ some file := fun i hi heq =>
    (logName_injective basePath).ne hi (dir'.names_inj _ _ file heq hfile)
  have hne : ∀ f ∈ older, f ≠ file := by
    rintro f hf rfl
    rcases List.mem_append.mp hf with h2 | h1
    · exact hnot 2 (by decide) (Option.mem_toList.mp h2)
    · exact hnot 1 (by decide) (Option.mem_toList.mp h1)
  have hdata : ∀ f ≠ file, (dir'.append file buf).data f = dir'.data f :=
    fun f hf => Function.update_of_ne hf _ _
  have hdataFile : (dir'.append file buf).data file = dir'.data file ++ buf :=
    Function.update_self ..
  have hlog' : logFiles basePath (dir'.append file buf) = older ++ [file] := hlog
  have hin : ∀ f, f = file ∨ f ∈ older → f ∈ logFiles basePath dir' := by
    rintro f (rfl | hf)
    · rw [hlog]
      exact List.mem_concat_self
    · rw [hlog]
      exact List.mem_append_left _ hf
  constructor
  case data_eq =>
    intro f hf
    rw [hlog', List.mem_append, List.mem_singleton] at hf
    rcases hf with hf | rfl
    · rw [hdata f (hne f hf), pieces_update_of_ne (hne f hf)]
      exact h.data_eq f (hin f (Or.inr hf))
    · rw [hdataFile, pieces_update_self, List.flatten_concat, h.data_eq f (hin f (Or.inl rfl))]
  case suffix =>
    have hkept := h.suffix
    rw [hlog, List.flatMap_append, List.flatMap_singleton] at hkept
    obtain ⟨lost, hlost⟩ := hkept
    refine ⟨lost, ?_⟩
    have hsame : older.flatMap (pieces dir (Function.update bufs file (bufs file ++ [buf]))) =
        older.flatMap (pieces dir bufs) :=
      List.flatMap_congr fun f hf => pieces_update_of_ne (hne f hf) _
    rw [hlog', List.flatMap_append, List.flatMap_singleton, pieces_update_self, hsame,
      ← List.append_assoc _ written, ← hlost]
    simp only [List.append_assoc]
  case size_le =>
    intro f hf hcreated
    rw [hlog', List.mem_append, List.mem_singleton] at hf
    rcases hf with hf | rfl
    · rw [hdata f (hne f hf), Function.update_of_ne (hne f hf)]
      exact h.size_le f (hin f (Or.inr hf)) hcreated
    · rw [hdataFile, Function.update_self, List.length_append]
      refine hsize.imp_right fun hnil => ?_
      rw [hnil]
      rfl
  case others =>
    intro name hname
    obtain ⟨heq, hold⟩ := h.others name hname
    refine ⟨heq, fun f hf => ?_⟩
    have hother : f ≠ file := by
      rintro rfl
      exact hname 0 (by decide) (dir'.names_inj _ _ f (heq.trans hf) hfile)
    rw [hdata f hother]
    exact hold f hf
  case next_le =>
    exact h.next_le
  case fresh =>
    intro f hf
    have hlt := dir'.names_lt _ file hfile
    have hother : f ≠ file := fun heq => absurd (heq ▸ hf) hlt.not_ge
    rw [Function.update_of_ne hother]
    exact h.fresh f hf

/-- What the files hold together is the end of all there was. -/
theorem LogKept.content_suffix (h : LogKept basePath dir dir' written bufs) :
    logContent basePath dir' <:+ logContent basePath dir ++ written.flatten := by
  have hcontent : logContent basePath dir' =
      ((logFiles basePath dir').flatMap (pieces dir bufs)).flatten := by
    rw [logContent, List.flatMap_congr h.data_eq, List.flatMap_def, List.flatMap_def,
      List.flatten_flatten, List.map_map]
    rfl
  obtain ⟨lost, hlost⟩ := h.suffix
  refine ⟨lost.flatten, ?_⟩
  rw [hcontent, ← List.flatten_append, hlost, List.flatten_append]
  rfl

end Kept

/-! ### A run of writes -/

namespace RotatingFileWriter

/-- The writer has the newest file open and knows its size. -/
structure Ready (basePath : String) (w : RotatingFileWriter) (dir : LogDir) : Prop where
  basePath_eq : w.basePath = basePath
  names_eq : dir.names (logName basePath 0) = some w.currentFile
  size_eq : w.currentSize = (dir.data w.currentFile).length

variable {basePath : String} {w : RotatingFileWriter} {dir dir' : LogDir}
  {written : List (List UInt8)} {bufs : ℕ → List (List UInt8)}

theorem ready_openOrCreateFile (basePath : String) (dir : LogDir) :
    Ready basePath ⟨basePath, (openOrCreateFile basePath dir).1.1,
      (openOrCreateFile basePath dir).1.2⟩ (openOrCreateFile basePath dir).2 :=
  ⟨rfl, names_openAppend dir basePath, rfl⟩

theorem ready_append (h : Ready basePath w dir) (buf : List UInt8) :
    Ready basePath { w with currentSize := w.currentSize + buf.length }
      (dir.append w.currentFile buf) := by
  refine ⟨h.basePath_eq, h.names_eq, ?_⟩
  have hdata : (dir.append w.currentFile buf).data w.currentFile = dir.data w.currentFile ++ buf :=
    Function.update_self ..
  rw [hdata, List.length_append, h.size_eq]

/-- A write keeps the log. -/
theorem kept_write (hready : Ready basePath w dir') (h : LogKept basePath dir dir' written bufs)
    (buf : List UInt8) :
    Ready basePath (w.write buf dir').2.1 (w.write buf dir').2.2 ∧
      ∃ bufs', LogKept basePath dir (w.write buf dir').2.2 (written ++ [buf]) bufs' := by
  rw [write]
  split_ifs with hfull
  · dsimp only
    rw [hready.basePath_eq]
    have hnone : (rotateFiles basePath dir').names (logName basePath 0) = none := by
      rw [rotateFiles_names]
      exact if_pos rfl
    have hrotated := h.rotateFiles
    have hopen := ready_openOrCreateFile basePath (rotateFiles basePath dir')
    have hfresh : (openOrCreateFile basePath (rotateFiles basePath dir')).1.1 =
        (rotateFiles basePath dir').next :=
      congrArg Prod.fst (openAppend_of_none hnone)
    refine ⟨ready_append hopen buf, _, hrotated.openAppend.append hopen.names_eq buf (Or.inr ?_)⟩
    change bufs (openOrCreateFile basePath (rotateFiles basePath dir')).1.1 = []
    rw [hfresh]
    exact hrotated.fresh _ le_rfl
  · refine ⟨ready_append hready buf, _, h.append hready.names_eq buf (Or.inl ?_)⟩
    rw [← hready.size_eq]
    omega

theorem kept_writeAll (hready : Ready basePath w dir')
    (h : LogKept basePath dir dir' written bufs) (more : List (List UInt8)) :
    ∃ bufs', LogKept basePath dir (w.writeAll dir' more).2 (written ++ more) bufs' := by
  induction more generalizing w dir' written bufs with
  | nil => exact ⟨bufs, by rwa [List.append_nil]⟩
  | cons buf more ih =>
    obtain ⟨hready', bufs', h'⟩ := kept_write hready h buf
    obtain ⟨bufs'', h''⟩ := ih hready' h'
    exact ⟨bufs'', by rwa [List.append_assoc] at h''⟩

theorem kept_new (basePath : String) (dir : LogDir) :
    Ready basePath (new basePath dir).1 (new basePath dir).2 ∧
      LogKept basePath dir (new basePath dir).2 [] fun _ => [] := by
  have hstart : LogKept basePath dir dir [] fun _ => [] := by
    have hpieces : ∀ file ∈ logFiles basePath dir,
        pieces dir (fun _ => []) file = [dir.data file] := fun file hfile => by
      obtain ⟨i, -, hi⟩ := mem_logFiles.mp hfile
      rw [pieces, if_pos (dir.names_lt _ file hi), List.append_nil]
    constructor
    · intro file hfile
      rw [hpieces file hfile, List.flatten_singleton]
    · rw [List.flatMap_congr hpieces, List.append_nil, ← List.map_eq_flatMap]
    · intro file hfile hcreated
      obtain ⟨i, -, hi⟩ := mem_logFiles.mp hfile
      exact absurd hcreated (dir.names_lt _ file hi).not_ge
    · exact fun _ _ => ⟨rfl, fun _ _ => rfl⟩
    · exact le_rfl
    · exact fun _ _ => rfl
  exact ⟨ready_openOrCreateFile basePath dir, hstart.openAppend⟩

/-- **The log.** After any writes the files hold the end of what was there at first and all buffers
in their order, no buffer is split, there are as many files as allowed at most, and a file that the
writer created keeps to the limit unless it holds one buffer. -/
theorem logKept (basePath : String) (dir : LogDir) (written : List (List UInt8)) :
    let dir' := ((new basePath dir).1.writeAll (new basePath dir).2 written).2
    logContent basePath dir' <:+ logContent basePath dir ++ written.flatten ∧
    (logFiles basePath dir').length ≤ maxLogFiles ∧
    ∃ bufs, LogKept basePath dir dir' written bufs := by
  intro dir'
  obtain ⟨hready, hnew⟩ := kept_new basePath dir
  obtain ⟨bufs, h⟩ := kept_writeAll hready hnew written
  refine ⟨h.content_suffix, ?_, bufs, h⟩
  exact (List.length_filterMap_le _ _).trans (by rw [List.length_reverse, List.length_range])

end RotatingFileWriter

end DistillFs
