import Ns3Raft.Store.Layout
import Mathlib.Logic.Function.Basic

/-! # Compaction when a file operation fails

`compact` on the files it works on: it copies the three files to their backups, rewrites
them, and goes to a recovery when an operation on them fails. One operation, any of those
that remove, open or truncate a file, fails during the call.
-/

namespace Ns3Raft.Store

open Records

/-! ## Files and streams -/

inductive File where
  | idx | data | sti
  deriving DecidableEq, Repr

/-- The three files and their backups. -/
inductive Path where
  | main (f : File)
  | bak (f : File)
  deriving DecidableEq, Repr

def Path.file : Path → File
  | .main f => f
  | .bak f => f

abbrev Content : File → Type
  | .idx => List Nat
  | .data => List UInt8
  | .sti => Option Nat

def Content.empty : ∀ f, Content f
  | .idx => []
  | .data => []
  | .sti => none

/-- A file after the content `c` was written from its start on. -/
def Content.over : ∀ f, Content f → Content f → Content f
  | .idx, old, c => overwrite old 0 c
  | .data, old, c => overwrite old 0 c
  | .sti, old, c => c.or old

/-- An `fstream`. -/
structure Stream where
  isOpen : Bool
  failed : Bool
  deriving DecidableEq, Repr

/-- The folder, the six streams under the paths they are declared for, and the members. -/
structure World where
  disk : ∀ p : Path, Option (Content p.file)
  streams : Path → Stream
  startIdx : Nat
  entriesInStore : Nat
  buf : LogBuffer
  bufSize : Nat

/-- The parts of `compact`. -/
inductive Phase where
  | backup | clear | part | restore
  deriving DecidableEq, Repr

/-- `create` is an `open` for writing alone, `reopen` the one after it. -/
inductive FileOp where
  | remove | open | create | reopen | truncate
  deriving DecidableEq, Repr

/-- A call of `compact` on a file. -/
structure Site where
  phase : Phase
  op : FileOp
  path : Path
  deriving DecidableEq, Repr

namespace World

def setFile (w : World) (p : Path) (c : Option (Content p.file)) : World :=
  { w with disk := Function.update w.disk p c }

def setStream (w : World) (p : Path) (s : Stream) : World :=
  { w with streams := Function.update w.streams p s }

/-- `close` of a stream that is not open sets its fail bit. -/
def close (w : World) (p : Path) : World :=
  if (w.streams p).isOpen then w.setStream p ⟨false, (w.streams p).failed⟩
  else w.setStream p ⟨false, true⟩

variable (bad : Site)

/-- `std::remove`, and whether it succeeded. -/
def remove (w : World) (site : Site) : Bool × World :=
  if site = bad ∨ w.disk site.path = none then (false, w) else (true, w.setFile site.path none)

/-- The stream is opened on a path for writing alone: the file is there afterwards, and empty. -/
def openOut (w : World) (site : Site) (stream : Path) : World :=
  if site = bad ∨ (w.streams stream).isOpen then w.setStream stream ⟨(w.streams stream).isOpen, true⟩
  else (w.setFile site.path (some (Content.empty _))).setStream stream ⟨true, false⟩

/-- The stream is opened for reading and writing: the file has to be there. -/
def openInOut (w : World) (site : Site) (stream : Path) : World :=
  if site = bad ∨ (w.streams stream).isOpen ∨ w.disk site.path = none then
    w.setStream stream ⟨(w.streams stream).isOpen, true⟩
  else w.setStream stream ⟨true, false⟩

/-- Create an empty file and open it again. -/
def create (w : World) (phase : Phase) (p : Path) : World :=
  let w := w.openOut bad ⟨phase, .create, p⟩ p
  let w := w.close p
  w.openInOut bad ⟨phase, .reopen, p⟩ p

/-! ## The call -/

/-- What a call returns, or that it throws. -/
inductive Result where
  | returned (b : Bool)
  | thrown
  deriving DecidableEq, Repr

/-- A backup file is opened, and created if it is not there. -/
def openBackup (w : World) (f : File) : World :=
  let w := w.openInOut bad ⟨.backup, .open, .bak f⟩ (.bak f)
  if (w.streams (.bak f)).failed then w.create bad .backup (.bak f) else w

/-- `bak_file << file_.rdbuf ()`. -/
def copyFile (w : World) (src dst : Path) (h : src.file = dst.file) : World :=
  match w.disk src, w.disk dst with
  | some c, some old => w.setFile dst (some (Content.over _ old (h ▸ c)))
  | _, _ => w

def backup (w : World) : World :=
  let w := (w.remove bad ⟨.backup, .remove, .bak .idx⟩).2
  let w := (w.remove bad ⟨.backup, .remove, .bak .data⟩).2
  let w := (w.remove bad ⟨.backup, .remove, .bak .sti⟩).2
  let w := w.openBackup bad .idx
  let w := w.openBackup bad .data
  w.openBackup bad .sti

def copyToBackup (w : World) : World :=
  ((w.copyFile (.main .idx) (.bak .idx) rfl).copyFile (.main .data) (.bak .data) rfl).copyFile
    (.main .sti) (.bak .sti) rfl

def closeBackup (w : World) : World := ((w.close (.bak .idx)).close (.bak .data)).close (.bak .sti)

/-- All entries go. `none` is the `break` to the recovery. -/
def clearAll (w : World) (lastLogIndex : Nat) : Option Result × World :=
  let w := (w.close (.main .idx)).close (.main .data)
  let (ok, w) := w.remove bad ⟨.clear, .remove, .main .idx⟩
  if !ok then (none, w)
  else
    let (ok, w) := w.remove bad ⟨.clear, .remove, .main .data⟩
    if !ok then (none, w)
    else
      let w := w.create bad .clear (.main .idx)
      let w := w.create bad .clear (.main .data)
      if (w.streams (.main .idx)).failed || (w.streams (.main .data)).failed then (none, w)
      else
        let w := w.setFile (.main .sti) (some (some (lastLogIndex + 1)))
        let w := { w with
          startIdx := lastLogIndex + 1, entriesInStore := 0, buf := w.buf.reset (lastLogIndex + 1) }
        (some (.returned true), w.closeBackup)

/-- The store of the members and the files. -/
def store (w : World) : FsLogStore :=
  ⟨⟨(w.disk (.main .idx)).getD [], (w.disk (.main .data)).getD [], (w.disk (.main .sti)).getD none⟩,
    w.entriesInStore, w.startIdx, w.buf, w.bufSize⟩

/-- `truncate`, and whether it succeeded. -/
def truncate (w : World) (site : Site) (cut : Content site.path.file → Content site.path.file) : Bool × World :=
  match w.disk site.path with
  | some c => if site = bad then (false, w) else (true, w.setFile site.path (some (cut c)))
  | none => (false, w)

/-- The members after a partial compaction; `fill_buffer` may throw. -/
def finishPart (w : World) (lastLogIndex : Nat) : Result × World :=
  let w := w.setFile (.main .sti) (some (some (lastLogIndex + 1)))
  let w := { w with
    startIdx := lastLogIndex + 1, entriesInStore := w.entriesInStore - (lastLogIndex - w.startIdx + 1) }
  let w := { w with buf := w.buf.reset w.store.windowStart }
  match w.store.fillBuffer with
  | none => (.thrown, w)
  | some s => (.returned true, { w with buf := s.buf })

/-- New content is written over a file, which is cut off behind it and opened again. -/
def rewriteFile (w : World) (p : Path) (c : Content p.file) (cut : Content p.file → Content p.file) : Bool × World :=
  let w := (w.setFile p (some c)).close p
  let (ok, w) := w.truncate bad ⟨.part, .truncate, p⟩ cut
  if !ok then (false, w)
  else
    let w := w.openInOut bad ⟨.part, .reopen, p⟩ p
    (!(w.streams p).failed, w)

/-- The entries up to the index go. `none` is the `break` to the recovery. -/
def compactPart (w : World) (lastLogIndex : Nat) : Option Result × World :=
  let k := lastLogIndex - w.startIdx + 1
  match w.store.files.idx[k]? with
  | none => (some .thrown, w)
  | some dataPos =>
      let idxLen := w.store.files.idx.length - k
      let dataLen := w.store.files.data.length - dataPos
      let dataBak := (w.disk (.bak .data)).getD []
      let (ok, w) := w.rewriteFile bad (.main .data) (overwrite w.store.files.data 0 (dataBak.drop dataPos))
        (List.take dataLen)
      if !ok then (none, w)
      else
        let idxBak := (w.disk (.bak .idx)).getD []
        let moved := ((idxBak.drop k).take idxLen).map (· - dataPos)
        let (ok, w) := w.rewriteFile bad (.main .idx) (overwrite w.store.files.idx 0 moved) (List.take idxLen)
        if !ok then (none, w)
        else
          let (r, w) := w.closeBackup.finishPart lastLogIndex
          (some r, w)

def closeIfGood (w : World) (p : Path) : World := if (w.streams p).failed then w else w.close p

/-- The recovery. The data file is opened at the path of its backup first. -/
def restore (w : World) : Result × World :=
  let w := ((w.closeIfGood (.main .idx)).closeIfGood (.main .data)).closeIfGood (.main .sti)
  let w := (w.remove bad ⟨.restore, .remove, .main .idx⟩).2
  let w := (w.remove bad ⟨.restore, .remove, .main .data⟩).2
  let w := (w.remove bad ⟨.restore, .remove, .main .sti⟩).2
  let w := w.openOut bad ⟨.restore, .create, .bak .data⟩ (.main .data)
  let w := w.close (.main .data)
  let w := w.openInOut bad ⟨.restore, .reopen, .main .data⟩ (.main .data)
  let w := w.create bad .restore (.main .idx)
  let w := w.create bad .restore (.main .sti)
  if (w.streams (.main .idx)).failed || (w.streams (.main .data)).failed || (w.streams (.main .sti)).failed then
    (.thrown, w)
  else
    let w := w.copyFile (.bak .data) (.main .data) rfl
    let w := w.copyFile (.bak .idx) (.main .idx) rfl
    let w := w.copyFile (.bak .sti) (.main .sti) rfl
    (.returned false, w.closeBackup)

/-- The streams of the backups are new in every call. -/
def declare (w : World) : World :=
  ((w.setStream (.bak .idx) ⟨false, false⟩).setStream (.bak .data) ⟨false, false⟩).setStream (.bak .sti)
    ⟨false, false⟩

def compact (w : World) (lastLogIndex : Nat) : Result × World :=
  if lastLogIndex < w.startIdx then (.thrown, w)
  else
    let w := w.declare.backup bad
    if (w.streams (.bak .idx)).failed || (w.streams (.bak .data)).failed || (w.streams (.bak .sti)).failed then
      (.returned false, w)
    else
      let w := w.copyToBackup
      let (r?, w) :=
        if lastLogIndex + 1 ≥ w.startIdx + w.entriesInStore then w.clearAll bad lastLogIndex
        else w.compactPart bad lastLogIndex
      match r? with
      | some r => (r, w)
      | none => w.restore bad

/-! ## What an operation leaves alone -/

/-- Only the file and the stream of a path may differ. -/
structure Only (p : Path) (w w' : World) : Prop where
  disk : ∀ q ≠ p, w'.disk q = w.disk q
  streams : ∀ q ≠ p, w'.streams q = w.streams q
  startIdx : w'.startIdx = w.startIdx
  entriesInStore : w'.entriesInStore = w.entriesInStore
  buf : w'.buf = w.buf
  bufSize : w'.bufSize = w.bufSize

variable {w w₁ w₂ : World} {p : Path} {bad : Site} {f : File}

@[refl] theorem Only.refl (p : Path) (w : World) : Only p w w :=
  ⟨fun _ _ => rfl, fun _ _ => rfl, rfl, rfl, rfl, rfl⟩

theorem Only.trans (h₁ : Only p w w₁) (h₂ : Only p w₁ w₂) : Only p w w₂ where
  disk q hq := (h₂.disk q hq).trans (h₁.disk q hq)
  streams q hq := (h₂.streams q hq).trans (h₁.streams q hq)
  startIdx := h₂.startIdx.trans h₁.startIdx
  entriesInStore := h₂.entriesInStore.trans h₁.entriesInStore
  buf := h₂.buf.trans h₁.buf
  bufSize := h₂.bufSize.trans h₁.bufSize

theorem only_setFile (w : World) (p : Path) (c : Option (Content p.file)) : Only p w (w.setFile p c) :=
  ⟨fun _ hq => Function.update_of_ne hq _ _, fun _ _ => rfl, rfl, rfl, rfl, rfl⟩

theorem only_setStream (w : World) (p : Path) (s : Stream) : Only p w (w.setStream p s) :=
  ⟨fun _ _ => rfl, fun _ hq => Function.update_of_ne hq _ _, rfl, rfl, rfl, rfl⟩

theorem only_close (w : World) (p : Path) : Only p w (w.close p) := by
  unfold close
  split <;> exact only_setStream _ _ _

theorem only_remove (bad : Site) (w : World) (site : Site) : Only site.path w (w.remove bad site).2 := by
  unfold remove
  split
  · rfl
  · exact only_setFile _ _ _

theorem only_openOut (bad : Site) (w : World) (site : Site) :
    Only site.path w (w.openOut bad site site.path) := by
  unfold openOut
  split
  · exact only_setStream _ _ _
  · exact (only_setFile _ _ _).trans (only_setStream _ _ _)

theorem only_openInOut (bad : Site) (w : World) (site : Site) :
    Only site.path w (w.openInOut bad site site.path) := by
  unfold openInOut
  split <;> exact only_setStream _ _ _

theorem only_create (bad : Site) (w : World) (phase : Phase) (p : Path) : Only p w (w.create bad phase p) :=
  ((only_openOut bad w ⟨phase, .create, p⟩).trans (only_close _ p)).trans
    (only_openInOut bad _ ⟨phase, .reopen, p⟩)

theorem only_openBackup (bad : Site) (w : World) (f : File) : Only (.bak f) w (w.openBackup bad f) := by
  have hopen : Only (.bak f) w (w.openInOut bad ⟨.backup, .open, .bak f⟩ (.bak f)) :=
    only_openInOut bad w ⟨.backup, .open, .bak f⟩
  unfold openBackup
  dsimp only
  split
  · exact hopen.trans (only_create bad _ .backup (.bak f))
  · exact hopen

theorem only_copyFile (w : World) (src dst : Path) (h : src.file = dst.file) :
    Only dst w (w.copyFile src dst h) := by
  unfold copyFile
  split
  · exact only_setFile _ _ _
  · rfl

/-- The log is as it was: its files, the streams on them and the members. -/
structure SameLog (w w' : World) : Prop where
  disk : ∀ f, w'.disk (.main f) = w.disk (.main f)
  streams : ∀ f, w'.streams (.main f) = w.streams (.main f)
  startIdx : w'.startIdx = w.startIdx
  entriesInStore : w'.entriesInStore = w.entriesInStore
  buf : w'.buf = w.buf
  bufSize : w'.bufSize = w.bufSize

theorem SameLog.trans (h₁ : SameLog w w₁) (h₂ : SameLog w₁ w₂) : SameLog w w₂ where
  disk f := (h₂.disk f).trans (h₁.disk f)
  streams f := (h₂.streams f).trans (h₁.streams f)
  startIdx := h₂.startIdx.trans h₁.startIdx
  entriesInStore := h₂.entriesInStore.trans h₁.entriesInStore
  buf := h₂.buf.trans h₁.buf
  bufSize := h₂.bufSize.trans h₁.bufSize

/-- Work on a backup is no work on the log. -/
theorem Only.sameLog (h : Only (.bak f) w w₁) : SameLog w w₁ :=
  ⟨fun _ => h.disk _ nofun, fun _ => h.streams _ nofun, h.startIdx, h.entriesInStore, h.buf, h.bufSize⟩

theorem SameLog.store_eq (h : SameLog w w₁) : w₁.store = w.store := by
  unfold store
  rw [h.disk .idx, h.disk .data, h.disk .sti, h.startIdx, h.entriesInStore, h.buf, h.bufSize]

/-! ## The backups -/

theorem close_isOpen (w : World) (p : Path) : ((w.close p).streams p).isOpen = false := by
  unfold close
  split <;> simp [setStream]

theorem close_disk (w : World) (p : Path) : (w.close p).disk = w.disk := by
  unfold close
  split <;> rfl

theorem openInOut_good {site : Site} (hbad : site ≠ bad) (hs : (w.streams site.path).isOpen = false)
    {c : Content site.path.file} (hd : w.disk site.path = some c) :
    w.openInOut bad site site.path = w.setStream site.path ⟨true, false⟩ := by
  unfold openInOut
  rw [if_neg (by simp [hbad, hs, hd])]

theorem openInOut_failed {site : Site} (h : site = bad ∨ w.disk site.path = none) :
    ((w.openInOut bad site site.path).streams site.path).failed = true := by
  unfold openInOut
  rw [if_pos (by tauto)]
  simp [setStream]

/-- A file is created unless one of the two openings fails. -/
theorem create_good {phase : Phase} (hs : (w.streams p).isOpen = false) (hcreate : bad ≠ ⟨phase, .create, p⟩)
    (hreopen : bad ≠ ⟨phase, .reopen, p⟩) :
    (w.create bad phase p).streams p = ⟨true, false⟩ ∧
      (w.create bad phase p).disk p = some (Content.empty p.file) := by
  have hout : w.openOut bad ⟨phase, .create, p⟩ p =
      (w.setFile p (some (Content.empty p.file))).setStream p ⟨true, false⟩ := by
    unfold openOut
    rw [if_neg (by simp [hs, Ne.symm hcreate])]
  have hd : ((w.openOut bad ⟨phase, .create, p⟩ p).close p).disk p = some (Content.empty p.file) := by
    rw [close_disk, hout]
    simp [setStream, setFile]
  have hin := openInOut_good (Ne.symm hreopen) (close_isOpen _ p) hd
  unfold create
  dsimp only
  rw [hin]
  exact ⟨by simp [setStream], hd⟩

theorem create_failed {phase : Phase} (hd : w.disk p = none)
    (hbad : bad = ⟨phase, .create, p⟩ ∨ bad = ⟨phase, .reopen, p⟩) :
    ((w.create bad phase p).streams p).failed = true := by
  refine openInOut_failed ?_
  rcases hbad with rfl | rfl
  · refine .inr ?_
    rw [close_disk]
    simpa [openOut, setStream] using hd
  · exact .inl rfl

theorem openBackup_good (hs : (w.streams (.bak f)).isOpen = false) (hcreate : bad ≠ ⟨.backup, .create, .bak f⟩)
    (hreopen : bad ≠ ⟨.backup, .reopen, .bak f⟩) :
    (w.openBackup bad f).streams (.bak f) = ⟨true, false⟩ ∧ ∃ c, (w.openBackup bad f).disk (.bak f) = some c := by
  by_cases h : (⟨.backup, .open, .bak f⟩ : Site) = bad ∨ (w.streams (.bak f)).isOpen = true ∨ w.disk (.bak f) = none
  · have hopen : w.openInOut bad ⟨.backup, .open, .bak f⟩ (.bak f) = w.setStream (.bak f) ⟨false, true⟩ := by
      unfold openInOut
      rw [if_pos h, hs]
    obtain ⟨hstream, hdisk⟩ := create_good (w := w.setStream (.bak f) ⟨false, true⟩) (p := .bak f)
      (by simp [setStream]) hcreate hreopen
    unfold openBackup
    rw [hopen]
    dsimp only
    rw [if_pos (by simp [setStream])]
    exact ⟨hstream, _, hdisk⟩
  · have hopen : w.openInOut bad ⟨.backup, .open, .bak f⟩ (.bak f) = w.setStream (.bak f) ⟨true, false⟩ := by
      unfold openInOut
      rw [if_neg h]
    unfold openBackup
    rw [hopen]
    dsimp only
    rw [if_neg (by simp [setStream])]
    exact ⟨by simp [setStream], Option.ne_none_iff_exists'.mp fun hn => h (.inr (.inr hn))⟩

theorem openBackup_failed (hd : w.disk (.bak f) = none)
    (hbad : bad = ⟨.backup, .create, .bak f⟩ ∨ bad = ⟨.backup, .reopen, .bak f⟩) :
    ((w.openBackup bad f).streams (.bak f)).failed = true := by
  have hgone : (⟨.backup, .open, .bak f⟩ : Site) = bad ∨ w.disk (Site.path ⟨.backup, .open, .bak f⟩) = none := .inr hd
  have hopen := openInOut_failed hgone
  unfold openBackup
  dsimp only
  rw [if_pos hopen]
  refine create_failed ?_ hbad
  unfold openInOut
  rw [if_pos (.inr (.inr hd))]
  exact hd

theorem remove_disk (w : World) (site : Site) :
    (w.remove bad site).2.disk site.path = none ∨ bad = site := by
  unfold remove
  split
  · rename_i h
    rcases h with h | h
    · exact .inr h.symm
    · exact .inl h
  · exact .inl (by simp [setFile])

theorem remove_streams (w : World) (site : Site) : (w.remove bad site).2.streams = w.streams := by
  unfold remove
  split <;> rfl

/-- Each backup is removed and opened, whatever becomes of the others. -/
theorem backup_at (w : World) (bad : Site) (f : File) :
    ∃ w₀ : World, (w₀.streams (.bak f)).isOpen = false ∧
      (w₀.disk (.bak f) = none ∨ bad = ⟨.backup, .remove, .bak f⟩) ∧
      (w.declare.backup bad).streams (.bak f) = (w₀.openBackup bad f).streams (.bak f) ∧
      (w.declare.backup bad).disk (.bak f) = (w₀.openBackup bad f).disk (.bak f) := by
  let w₁ := (w.declare.remove bad ⟨.backup, .remove, .bak .idx⟩).2
  let w₂ := (w₁.remove bad ⟨.backup, .remove, .bak .data⟩).2
  let w₃ := (w₂.remove bad ⟨.backup, .remove, .bak .sti⟩).2
  let w₄ := w₃.openBackup bad .idx
  let w₅ := w₄.openBackup bad .data
  have h₂ : Only (.bak .data) w₁ w₂ := only_remove bad _ ⟨.backup, .remove, .bak .data⟩
  have h₃ : Only (.bak .sti) w₂ w₃ := only_remove bad _ ⟨.backup, .remove, .bak .sti⟩
  have h₄ : Only (.bak .idx) w₃ w₄ := only_openBackup bad _ .idx
  have h₅ : Only (.bak .data) w₄ w₅ := only_openBackup bad _ .data
  have h₆ : Only (.bak .sti) w₅ (w₅.openBackup bad .sti) := only_openBackup bad _ .sti
  have hstreams : w₃.streams = w.declare.streams := by
    simp only [w₃, w₂, w₁, remove_streams]
  have hclosed (f : File) : (w₃.streams (.bak f)).isOpen = false := by
    rw [hstreams]
    cases f <;> simp [declare, setStream]
  show ∃ w₀ : World, (w₀.streams (.bak f)).isOpen = false ∧
    (w₀.disk (.bak f) = none ∨ bad = ⟨.backup, .remove, .bak f⟩) ∧
    (w₅.openBackup bad .sti).streams (.bak f) = (w₀.openBackup bad f).streams (.bak f) ∧
    (w₅.openBackup bad .sti).disk (.bak f) = (w₀.openBackup bad f).disk (.bak f)
  cases f with
  | idx =>
      refine ⟨w₃, hclosed .idx, ?_, ?_, ?_⟩
      · rw [h₃.disk (.bak .idx) nofun, h₂.disk (.bak .idx) nofun]
        exact remove_disk w.declare ⟨.backup, .remove, .bak .idx⟩
      · rw [h₆.streams (.bak .idx) nofun, h₅.streams (.bak .idx) nofun]
      · rw [h₆.disk (.bak .idx) nofun, h₅.disk (.bak .idx) nofun]
  | data =>
      refine ⟨w₄, ?_, ?_, ?_, ?_⟩
      · rw [h₄.streams (.bak .data) nofun]
        exact hclosed .data
      · rw [h₄.disk (.bak .data) nofun, h₃.disk (.bak .data) nofun]
        exact remove_disk w₁ ⟨.backup, .remove, .bak .data⟩
      · rw [h₆.streams (.bak .data) nofun]
      · rw [h₆.disk (.bak .data) nofun]
  | sti =>
      refine ⟨w₅, ?_, ?_, rfl, rfl⟩
      · rw [h₅.streams (.bak .sti) nofun, h₄.streams (.bak .sti) nofun]
        exact hclosed .sti
      · rw [h₅.disk (.bak .sti) nofun, h₄.disk (.bak .sti) nofun]
        exact remove_disk w₂ ⟨.backup, .remove, .bak .sti⟩

/-- The creation of a backup, the operations whose failure ends the call before the log is touched. -/
def backupSites : List Site :=
  [⟨.backup, .create, .bak .idx⟩, ⟨.backup, .reopen, .bak .idx⟩, ⟨.backup, .create, .bak .data⟩,
    ⟨.backup, .reopen, .bak .data⟩, ⟨.backup, .create, .bak .sti⟩, ⟨.backup, .reopen, .bak .sti⟩]

theorem mem_backupSites : bad ∈ backupSites ↔
    ∃ f, bad = ⟨.backup, .create, .bak f⟩ ∨ bad = ⟨.backup, .reopen, .bak f⟩ := by
  constructor
  · intro h
    simp only [backupSites, List.mem_cons, List.not_mem_nil, or_false] at h
    rcases h with h | h | h | h | h | h
    · exact ⟨.idx, .inl h⟩
    · exact ⟨.idx, .inr h⟩
    · exact ⟨.data, .inl h⟩
    · exact ⟨.data, .inr h⟩
    · exact ⟨.sti, .inl h⟩
    · exact ⟨.sti, .inr h⟩
  · rintro ⟨f, rfl | rfl⟩ <;> cases f <;> decide

theorem backup_good (w : World) (hbad : bad ∉ backupSites) (f : File) :
    (w.declare.backup bad).streams (.bak f) = ⟨true, false⟩ ∧
      ∃ c, (w.declare.backup bad).disk (.bak f) = some c := by
  obtain ⟨w₀, hclosed, _, hstream, hdisk⟩ := backup_at w bad f
  rw [hstream, hdisk]
  exact openBackup_good hclosed (fun h => hbad (mem_backupSites.mpr ⟨f, .inl h⟩))
    (fun h => hbad (mem_backupSites.mpr ⟨f, .inr h⟩))

theorem backup_failed (w : World) (hbad : bad ∈ backupSites) :
    ∃ f, ((w.declare.backup bad).streams (.bak f)).failed = true := by
  obtain ⟨f, hf⟩ := mem_backupSites.mp hbad
  obtain ⟨w₀, _, hgone, hstream, _⟩ := backup_at w bad f
  refine ⟨f, ?_⟩
  rw [hstream]
  refine openBackup_failed (hgone.resolve_right ?_) hf
  rintro rfl
  rcases hf with hf | hf <;> cases hf

/-- The log is not touched before the backups are made. -/
theorem backup_sameLog (w : World) (bad : Site) : SameLog w (w.declare.backup bad) := by
  refine SameLog.trans (show SameLog w w.declare from ?_) ?_
  · exact ((only_setStream _ (.bak .idx) _).sameLog.trans (only_setStream _ (.bak .data) _).sameLog).trans
      (only_setStream _ (.bak .sti) _).sameLog
  · unfold backup
    exact (((((only_remove bad _ ⟨.backup, .remove, .bak .idx⟩).sameLog (f := .idx)).trans
      ((only_remove bad _ ⟨.backup, .remove, .bak .data⟩).sameLog (f := .data))).trans
      ((only_remove bad _ ⟨.backup, .remove, .bak .sti⟩).sameLog (f := .sti))).trans
      (((only_openBackup bad _ .idx).sameLog.trans (only_openBackup bad _ .data).sameLog).trans
        (only_openBackup bad _ .sti).sameLog))

theorem copyToBackup_sameLog (w : World) : SameLog w w.copyToBackup :=
  ((only_copyFile w (.main .idx) (.bak .idx) rfl).sameLog.trans
    (only_copyFile _ (.main .data) (.bak .data) rfl).sameLog).trans
    (only_copyFile _ (.main .sti) (.bak .sti) rfl).sameLog

theorem closeBackup_sameLog (w : World) : SameLog w w.closeBackup :=
  ((only_close w (.bak .idx)).sameLog.trans (only_close _ (.bak .data)).sameLog).trans
    (only_close _ (.bak .sti)).sameLog

/-! ## The recovery -/

theorem openInOut_disk (w : World) (site : Site) (stream : Path) :
    (w.openInOut bad site stream).disk = w.disk := by
  unfold openInOut
  split <;> rfl

theorem openOut_disk (w : World) (site : Site) {stream q : Path} (hq : q ≠ site.path) :
    (w.openOut bad site stream).disk q = w.disk q := by
  unfold openOut
  split
  · rfl
  · exact (only_setFile w site.path _).disk q hq

/-- The data file is opened under the name of its backup: where it should be there is no file
to open. -/
theorem restore_thrown (w : World) (hbad : bad.phase ≠ .restore) :
    (w.restore bad).1 = .thrown ∧ (w.restore bad).2.disk (.main .data) = none := by
  let w₀ := ((w.closeIfGood (.main .idx)).closeIfGood (.main .data)).closeIfGood (.main .sti)
  let w₁ := (w₀.remove bad ⟨.restore, .remove, .main .idx⟩).2
  let w₂ := (w₁.remove bad ⟨.restore, .remove, .main .data⟩).2
  let w₃ := (w₂.remove bad ⟨.restore, .remove, .main .sti⟩).2
  let w₄ := (w₃.openOut bad ⟨.restore, .create, .bak .data⟩ (.main .data)).close (.main .data)
  let w₅ := w₄.openInOut bad ⟨.restore, .reopen, .main .data⟩ (.main .data)
  let w₆ := w₅.create bad .restore (.main .idx)
  let w₇ := w₆.create bad .restore (.main .sti)
  have hgone₂ : w₂.disk (.main .data) = none :=
    (remove_disk w₁ ⟨.restore, .remove, .main .data⟩).resolve_right fun h => hbad (by rw [h])
  have h₃ : Only (.main .sti) w₂ w₃ := only_remove bad _ ⟨.restore, .remove, .main .sti⟩
  have h₆ : Only (.main .idx) w₅ w₆ := only_create bad _ .restore (.main .idx)
  have h₇ : Only (.main .sti) w₆ w₇ := only_create bad _ .restore (.main .sti)
  have hgone₄ : w₄.disk (.main .data) = none := by
    show ((w₃.openOut bad ⟨.restore, .create, .bak .data⟩ (.main .data)).close (.main .data)).disk _ = _
    rw [close_disk, openOut_disk w₃ ⟨.restore, .create, .bak .data⟩ (q := .main .data) nofun, h₃.disk (.main .data) nofun, hgone₂]
  have hfailed₅ : (w₅.streams (.main .data)).failed = true :=
    openInOut_failed (.inr hgone₄)
  have hgone₅ : w₅.disk (.main .data) = none := by
    show (w₄.openInOut bad ⟨.restore, .reopen, .main .data⟩ (.main .data)).disk _ = _
    rw [openInOut_disk, hgone₄]
  have hfailed : (w₇.streams (.main .data)).failed = true := by
    rw [h₇.streams (.main .data) nofun, h₆.streams (.main .data) nofun, hfailed₅]
  have hgone : w₇.disk (.main .data) = none := by
    rw [h₇.disk (.main .data) nofun, h₆.disk (.main .data) nofun, hgone₅]
  have hany : ((w₇.streams (.main .idx)).failed || (w₇.streams (.main .data)).failed ||
      (w₇.streams (.main .sti)).failed) = true := by
    rw [hfailed, Bool.or_true, Bool.true_or]
  have heq : w.restore bad = (.thrown, w₇) := by
    unfold restore
    exact if_pos hany
  rw [heq]
  exact ⟨rfl, hgone⟩

/-! ## All entries go -/

/-- From here on a failure ends in the recovery. -/
def clearSites : List Site :=
  [⟨.clear, .remove, .main .idx⟩, ⟨.clear, .remove, .main .data⟩, ⟨.clear, .create, .main .idx⟩,
    ⟨.clear, .reopen, .main .idx⟩, ⟨.clear, .create, .main .data⟩, ⟨.clear, .reopen, .main .data⟩]

theorem remove_good {site : Site} (hbad : site ≠ bad) (hd : w.disk site.path ≠ none) :
    w.remove bad site = (true, w.setFile site.path none) := by
  unfold remove
  rw [if_neg (by simp [hbad, hd])]

theorem remove_bad (w : World) (bad : Site) : w.remove bad bad = (false, w) := by
  unfold remove
  rw [if_pos (.inl rfl)]

/-- The two files removed, and both streams closed. -/
def emptied (w : World) : World :=
  (((w.close (.main .idx)).close (.main .data)).setFile (.main .idx) none).setFile (.main .data) none

theorem emptied_disk (w : World) : w.emptied.disk (.main .idx) = none ∧ w.emptied.disk (.main .data) = none := by
  simp [emptied, setFile]

theorem emptied_isOpen (w : World) :
    (w.emptied.streams (.main .idx)).isOpen = false ∧ (w.emptied.streams (.main .data)).isOpen = false := by
  have hidx := close_isOpen w (.main .idx)
  have hdata := close_isOpen (w.close (.main .idx)) (.main .data)
  rw [← (only_close (w.close (.main .idx)) (.main .data)).streams (.main .idx) nofun] at hidx
  exact ⟨hidx, hdata⟩

section Clear

variable (hidx : w.disk (.main .idx) ≠ none) (hdata : w.disk (.main .data) ≠ none)
include hidx hdata

/-- Past the removals, what counts is that both files are created. -/
theorem clearAll_removed (last : Nat) (hi : (⟨.clear, .remove, .main .idx⟩ : Site) ≠ bad)
    (hd : (⟨.clear, .remove, .main .data⟩ : Site) ≠ bad) :
    (w.clearAll bad last).1 =
      let w := (w.emptied.create bad .clear (.main .idx)).create bad .clear (.main .data)
      if (w.streams (.main .idx)).failed || (w.streams (.main .data)).failed then none
      else some (.returned true) := by
  have hclosed : ((w.close (.main .idx)).close (.main .data)).disk = w.disk := by
    rw [close_disk, close_disk]
  have hdata' : (((w.close (.main .idx)).close (.main .data)).setFile (.main .idx) none).disk (.main .data) ≠
      none := by
    rw [(only_setFile _ (.main .idx) none).disk (.main .data) nofun, hclosed]
    exact hdata
  unfold clearAll
  dsimp only
  rw [remove_good hi (by rw [hclosed]; exact hidx)]
  dsimp only
  rw [remove_good hd hdata']
  simp only [Bool.not_true, Bool.false_eq_true, if_false]
  exact apply_ite Prod.fst _ _ _

theorem clearAll_good (last : Nat) (hbad : bad ∉ clearSites) :
    (w.clearAll bad last).1 = some (.returned true) := by
  have hne : ∀ site ∈ clearSites, bad ≠ site := fun site hsite heq => hbad (heq ▸ hsite)
  have hfirst := (create_good (w.emptied_isOpen.1) (hne ⟨.clear, .create, .main .idx⟩ (by decide))
    (hne ⟨.clear, .reopen, .main .idx⟩ (by decide))).1
  have honly := only_create bad w.emptied .clear (.main .idx)
  have hsecond := (create_good (w := w.emptied.create bad .clear (.main .idx)) (p := .main .data)
    (by rw [honly.streams (.main .data) nofun]; exact w.emptied_isOpen.2)
    (hne ⟨.clear, .create, .main .data⟩ (by decide)) (hne ⟨.clear, .reopen, .main .data⟩ (by decide))).1
  have honly' := only_create bad (w.emptied.create bad .clear (.main .idx)) .clear (.main .data)
  rw [clearAll_removed hidx hdata last (hne ⟨.clear, .remove, .main .idx⟩ (by decide)).symm
    (hne ⟨.clear, .remove, .main .data⟩ (by decide)).symm]
  dsimp only
  rw [honly'.streams (.main .idx) nofun, hfirst, hsecond]
  rfl

theorem clearAll_failed (last : Nat) (hbad : bad ∈ clearSites) : (w.clearAll bad last).1 = none := by
  by_cases hi : (⟨.clear, .remove, .main .idx⟩ : Site) = bad
  · subst hi
    unfold clearAll
    dsimp only
    rw [remove_bad]
    rfl
  by_cases hd : (⟨.clear, .remove, .main .data⟩ : Site) = bad
  · subst hd
    unfold clearAll
    dsimp only
    rw [remove_good hi (by rw [close_disk, close_disk]; exact hidx)]
    dsimp only
    rw [remove_bad]
    rfl
  rw [clearAll_removed hidx hdata last hi hd]
  have honly := only_create bad w.emptied .clear (.main .idx)
  have honly' := only_create bad (w.emptied.create bad .clear (.main .idx)) .clear (.main .data)
  have hgone : (w.emptied.create bad .clear (.main .idx)).disk (.main .data) = none := by
    rw [honly.disk (.main .data) nofun]
    exact w.emptied_disk.2
  refine if_pos ?_
  rw [Bool.or_eq_true, honly'.streams (.main .idx) nofun]
  simp only [clearSites, List.mem_cons, List.not_mem_nil, or_false] at hbad
  rcases hbad with h | h | h | h | h | h
  · exact absurd h.symm hi
  · exact absurd h.symm hd
  · exact .inl (create_failed w.emptied_disk.1 (.inl h))
  · exact .inl (create_failed w.emptied_disk.1 (.inr h))
  · exact .inr (create_failed hgone (.inl h))
  · exact .inr (create_failed hgone (.inr h))

end Clear

/-! ## A part of the entries goes -/

theorem truncate_good {site : Site} (hbad : site ≠ bad) {c : Content site.path.file}
    (hd : w.disk site.path = some c) (cut : Content site.path.file → Content site.path.file) :
    w.truncate bad site cut = (true, w.setFile site.path (some (cut c))) := by
  unfold truncate
  rw [hd]
  exact if_neg hbad

theorem truncate_bad (w : World) (bad : Site) (cut : Content bad.path.file → Content bad.path.file) :
    w.truncate bad bad cut = (false, w) := by
  unfold truncate
  split
  · exact if_pos rfl
  · rfl

theorem rewriteFile_failed (w : World) {p : Path} {c : Content p.file} {cut : Content p.file → Content p.file}
    (hbad : bad = ⟨.part, .truncate, p⟩ ∨ bad = ⟨.part, .reopen, p⟩) :
    (w.rewriteFile bad p c cut).1 = false := by
  have hdisk : ((w.setFile p (some c)).close p).disk p = some c := by
    rw [close_disk]
    simp [setFile]
  unfold rewriteFile
  dsimp only
  rcases hbad with rfl | rfl
  · rw [truncate_bad]
    rfl
  · rw [truncate_good (by simp) hdisk]
    simp only [Bool.not_true, Bool.false_eq_true, if_false, Bool.not_eq_false']
    exact openInOut_failed (.inl rfl)

theorem rewriteFile_good (w : World) {p : Path} {c : Content p.file} (cut : Content p.file → Content p.file)
    (htruncate : bad ≠ ⟨.part, .truncate, p⟩) (hreopen : bad ≠ ⟨.part, .reopen, p⟩) :
    ∃ w', w.rewriteFile bad p c cut = (true, w') ∧ w'.disk p = some (cut c) ∧ Only p w w' := by
  have hdisk : ((w.setFile p (some c)).close p).disk p = some c := by
    rw [close_disk]
    simp [setFile]
  have hopen := openInOut_good (w := ((w.setFile p (some c)).close p).setFile p (some (cut c))) (c := cut c)
    (Ne.symm hreopen) (close_isOpen _ p) (by simp [setFile])
  have heq : w.rewriteFile bad p c cut =
      (true, (((w.setFile p (some c)).close p).setFile p (some (cut c))).setStream p ⟨true, false⟩) := by
    unfold rewriteFile
    dsimp only
    rw [truncate_good (Ne.symm htruncate) hdisk]
    simp only [Bool.not_true, Bool.false_eq_true, if_false]
    rw [hopen]
    simp [setStream]
  refine ⟨_, heq, by simp [setStream, setFile], ?_⟩
  exact (((only_setFile w p _).trans (only_close _ p)).trans (only_setFile _ p _)).trans (only_setStream _ p _)

def partSites : List Site :=
  [⟨.part, .truncate, .main .data⟩, ⟨.part, .reopen, .main .data⟩, ⟨.part, .truncate, .main .idx⟩,
    ⟨.part, .reopen, .main .idx⟩]

/-- The log with its backups, which may be longer than the files. -/
structure Copied (w : World) (rs : List (List UInt8)) : Prop where
  sound : Sound w.store rs
  idx : w.disk (.main .idx) = some (offsets 0 rs)
  data : w.disk (.main .data) = some rs.flatten
  idxBak : ∃ x, w.disk (.bak .idx) = some (offsets 0 rs ++ x)
  dataBak : ∃ y, w.disk (.bak .data) = some (rs.flatten ++ y)

variable {rs : List (List UInt8)}

/-- A cache without room is not filled. -/
theorem fillBuffer_none {s : FsLogStore} (hl : Laid s.files s.startIdx rs) (hne : rs ≠ [])
    (hb : s.buf = ⟨[], s.startIdx + rs.length, 0⟩) : s.fillBuffer = none := by
  have hidx : s.files.idx ≠ [] := by
    intro h
    have hlen := congrArg List.length hl.idx
    rw [h, offsets_length] at hlen
    exact hne (List.length_eq_zero_iff.mp hlen.symm)
  unfold FsLogStore.fillBuffer
  rw [if_neg hidx, hb, LogBuffer.firstIdx]
  dsimp only
  rw [Nat.add_sub_cancel_left, List.drop_eq_nil_of_le (Nat.le_of_eq (by rw [hl.idx, offsets_length]))]

/-- What is left of the entries, once the files are rewritten. -/
theorem finishPart_spec (w : World) (last k : Nat) (hk : last - w.startIdx + 1 = k) (hlt : k < rs.length)
    (hidx : w.disk (.main .idx) = some (offsets 0 (rs.drop k)))
    (hdata : w.disk (.main .data) = some (rs.drop k).flatten) (hsize : ∀ r ∈ rs, szUlong < r.length)
    (hcount : w.entriesInStore = rs.length) (hcache : w.buf.maxSize = w.bufSize) :
    (w.finishPart last).2.startIdx = last + 1 ∧
      (w.finishPart last).1 = if w.bufSize = 0 then .thrown else .returned true := by
  let w₁ : World := { w.setFile (.main .sti) (some (some (last + 1))) with
    startIdx := last + 1, entriesInStore := w.entriesInStore - k }
  let w₂ : World := { w₁ with buf := w.buf.reset w₁.store.windowStart }
  have hfin : w.finishPart last = match w₂.store.fillBuffer with
      | none => (.thrown, w₂)
      | some s => (.returned true, { w₂ with buf := s.buf }) := by
    subst hk
    rfl
  have hdisk (f : File) (hf : Path.main f ≠ .main .sti) : w₂.disk (.main f) = w.disk (.main f) :=
    Function.update_of_ne hf _ _
  have hlaid : Laid w₂.store.files w₂.store.startIdx (rs.drop k) := by
    refine ⟨?_, ?_, ?_, fun r hr => hsize r (List.mem_of_mem_drop hr)⟩
    · show (w₂.disk (.main .idx)).getD [] = _
      rw [hdisk .idx nofun, hidx]
      rfl
    · show (w₂.disk (.main .data)).getD [] = _
      rw [hdisk .data nofun, hdata]
      rfl
    · show ((w.setFile (.main .sti) (some (some (last + 1)))).disk (.main .sti)).getD none = _
      simp [setFile]
      rfl
  have hbuf : w₂.store.buf = ⟨[], w₂.store.startIdx + ((rs.drop k).length - w.bufSize), w.bufSize⟩ := by
    show LogBuffer.reset w.buf w₁.store.windowStart = _
    rw [windowStart_eq (s := w₁.store) (rs.drop k) (by rw [List.length_drop, ← hcount]; rfl)]
    unfold LogBuffer.reset
    rw [hcache]
    rfl
  have hne : rs.drop k ≠ [] := by
    rw [ne_eq, List.drop_eq_nil_iff]
    omega
  rw [hfin]
  by_cases hzero : w.bufSize = 0
  · have hnone : w₂.store.fillBuffer = none := by
      refine fillBuffer_none hlaid hne ?_
      rw [hbuf, hzero]
      rfl
    rw [hnone, if_pos hzero]
    exact ⟨rfl, rfl⟩
  · obtain ⟨s', hs'⟩ := fillBuffer_isSome hlaid hbuf (Nat.pos_of_ne_zero hzero)
    rw [hs', if_neg hzero]
    exact ⟨rfl, rfl⟩

section Part

variable (hc : Copied w rs) {last : Nat} (hlast : w.startIdx ≤ last) (hpart : last + 1 < w.startIdx + w.entriesInStore)
include hc hlast hpart

theorem compactPart_good (hbad : bad ∉ partSites) :
    (w.compactPart bad last).2.startIdx = last + 1 ∧
      (w.compactPart bad last).1 = some (if w.bufSize = 0 then .thrown else .returned true) := by
  obtain ⟨x, hx⟩ := hc.idxBak
  obtain ⟨y, hy⟩ := hc.dataBak
  have hne : ∀ site ∈ partSites, bad ≠ site := fun site hsite heq => hbad (heq ▸ hsite)
  have hcount : w.entriesInStore = rs.length := hc.sound.count
  obtain ⟨k, hk⟩ : ∃ k, last - w.startIdx + 1 = k := ⟨_, rfl⟩
  have hlt : k < rs.length := by omega
  obtain ⟨n, hn⟩ : ∃ n, (rs.take k).flatten.length = n := ⟨_, rfl⟩
  have hpos : w.store.files.idx[k]? = some n := by rw [hc.sound.idx_getElem? hlt, hn]
  have hidx : w.store.files.idx = offsets 0 rs := hc.sound.laid.idx
  have hdata : w.store.files.data = rs.flatten := hc.sound.laid.data
  have hbak : (w.disk (.bak .data)).getD [] = rs.flatten ++ y := by
    rw [hy]
    rfl
  -- the data file holds the records that are left
  obtain ⟨w₁, heq₁, hdisk₁, honly₁⟩ := rewriteFile_good w (p := .main .data)
    (c := overwrite rs.flatten 0 ((rs.flatten ++ y).drop n)) (List.take (rs.flatten.length - n))
    (hne ⟨.part, .truncate, .main .data⟩ (by decide)) (hne ⟨.part, .reopen, .main .data⟩ (by decide))
  have hdata₁ : w₁.disk (.main .data) = some (rs.drop k).flatten := by
    rw [← flatten_drop, hn, ← take_overwrite_copy rs.flatten y (by rw [← hn]; exact flatten_take_length_le k rs)]
    exact hdisk₁
  -- and the index file their offsets in it
  have hidx₁ : w₁.store.files.idx = offsets 0 rs := by
    rw [← hidx]
    exact congrArg (Option.getD · []) (honly₁.disk (.main .idx) nofun)
  have hbak₁ : (w₁.disk (.bak .idx)).getD [] = offsets 0 rs ++ x := by
    rw [honly₁.disk (.bak .idx) nofun, hx]
    rfl
  have hmoved : (((offsets 0 rs ++ x).drop k).take (rs.length - k)).map (· - n) = offsets 0 (rs.drop k) := by
    rw [List.drop_append_of_le_length (by rw [offsets_length]; omega), offsets_drop, Nat.zero_add, hn]
    have hlen : (offsets n (rs.drop k)).length = rs.length - k := by rw [offsets_length, List.length_drop]
    rw [List.take_append_of_le_length (Nat.le_of_eq hlen.symm), List.take_of_length_le (Nat.le_of_eq hlen),
      offsets_map_sub _ _ _ (Nat.le_refl n), Nat.sub_self]
  obtain ⟨w₂, heq₂, hdisk₂, honly₂⟩ := rewriteFile_good w₁ (p := .main .idx)
    (c := overwrite (offsets 0 rs) 0 (offsets 0 (rs.drop k))) (List.take (rs.length - k))
    (hne ⟨.part, .truncate, .main .idx⟩ (by decide)) (hne ⟨.part, .reopen, .main .idx⟩ (by decide))
  have hidx₂ : w₂.disk (.main .idx) = some (offsets 0 (rs.drop k)) := by
    have htake := take_overwrite (offsets 0 rs) (offsets 0 (rs.drop k)) (Nat.zero_le _)
    rw [Nat.zero_add, offsets_length, List.length_drop, List.take_zero, List.nil_append] at htake
    exact hdisk₂.trans (congrArg some htake)
  have hlog := w₂.closeBackup_sameLog
  have hfin := finishPart_spec w₂.closeBackup last k
    (by rw [hlog.startIdx, honly₂.startIdx, honly₁.startIdx, hk]) hlt (by rw [hlog.disk .idx, hidx₂])
    (by rw [hlog.disk .data, honly₂.disk (.main .data) nofun, hdata₁]) hc.sound.laid.size
    (by rw [hlog.entriesInStore, honly₂.entriesInStore, honly₁.entriesInStore, hcount])
    (by rw [hlog.buf, honly₂.buf, honly₁.buf, hlog.bufSize, honly₂.bufSize, honly₁.bufSize]; exact hc.sound.cache)
  rw [hlog.bufSize, honly₂.bufSize, honly₁.bufSize] at hfin
  have heq : w.compactPart bad last =
      (some (w₂.closeBackup.finishPart last).1, (w₂.closeBackup.finishPart last).2) := by
    unfold compactPart
    dsimp only
    rw [hk, hpos]
    dsimp only
    rw [hidx, hdata, hbak, offsets_length, heq₁]
    simp only [Bool.not_true, Bool.false_eq_true, if_false]
    rw [hidx₁, hbak₁, hmoved, heq₂]
    rfl
  rw [heq]
  exact ⟨hfin.1, congrArg some hfin.2⟩

theorem compactPart_failed (hbad : bad ∈ partSites) : (w.compactPart bad last).1 = none := by
  have hcount : w.entriesInStore = rs.length := hc.sound.count
  obtain ⟨k, hk⟩ : ∃ k, last - w.startIdx + 1 = k := ⟨_, rfl⟩
  have hlt : k < rs.length := by omega
  have hpos := hc.sound.idx_getElem? hlt
  by_cases hfirst : bad = ⟨.part, .truncate, .main .data⟩ ∨ bad = ⟨.part, .reopen, .main .data⟩
  · unfold compactPart
    dsimp only
    rw [hk, hpos]
    dsimp only
    refine congrArg Prod.fst (if_pos ?_)
    rw [Bool.not_eq_true']
    exact rewriteFile_failed w hfirst
  · have hsecond : bad = ⟨.part, .truncate, .main .idx⟩ ∨ bad = ⟨.part, .reopen, .main .idx⟩ := by
      simp only [partSites, List.mem_cons, List.not_mem_nil, or_false] at hbad
      tauto
    obtain ⟨w₁, heq₁, -⟩ := rewriteFile_good w (p := .main .data)
      (c := overwrite w.store.files.data 0 (((w.disk (.bak .data)).getD []).drop (rs.take k).flatten.length))
      (List.take (w.store.files.data.length - (rs.take k).flatten.length))
      (fun h => hfirst (.inl h)) (fun h => hfirst (.inr h))
    unfold compactPart
    dsimp only
    rw [hk, hpos]
    dsimp only
    rw [heq₁]
    simp only [Bool.not_true, Bool.false_eq_true, if_false]
    refine congrArg Prod.fst (if_pos ?_)
    rw [Bool.not_eq_true']
    exact rewriteFile_failed w₁ hsecond

end Part

/-! ## Atomicity -/

/-- A store with its files open. -/
structure Opened (w : World) (rs : List (List UInt8)) : Prop where
  sound : Sound w.store rs
  idx : w.disk (.main .idx) = some (offsets 0 rs)
  data : w.disk (.main .data) = some rs.flatten
  streams : ∀ f, w.streams (.main f) = ⟨true, false⟩

/-- A call that does not return true leaves the log as it was, for every reader. -/
def Atomic (bad : Site) (w : World) (lastLogIndex : Nat) : Prop :=
  (w.compact bad lastLogIndex).1 ≠ .returned true →
    SameLog w (w.compact bad lastLogIndex).2 ∧
      ∀ index, (w.compact bad lastLogIndex).2.store.entryAt index = w.store.entryAt index

/-- No entry is left behind the index. -/
def ClearsAll (w : World) (lastLogIndex : Nat) : Prop := w.startIdx + w.entriesInStore ≤ lastLogIndex + 1

instance (w : World) (lastLogIndex : Nat) : Decidable (w.ClearsAll lastLogIndex) :=
  inferInstanceAs (Decidable (_ ≤ _))

/-- The operations after which the recovery runs. -/
def fatalSites (w : World) (lastLogIndex : Nat) : List Site :=
  if w.ClearsAll lastLogIndex then clearSites else partSites

/-- What the copies hold, whatever was in the backups before. -/
theorem Opened.copied (h : Opened w rs) (hbak : ∀ f, ∃ c, w.disk (.bak f) = some c) :
    Copied w.copyToBackup rs := by
  obtain ⟨x, hx⟩ := hbak .idx
  obtain ⟨y, hy⟩ := hbak .data
  have hlog := w.copyToBackup_sameLog
  let w₁ := w.copyFile (.main .idx) (.bak .idx) rfl
  let w₂ := w₁.copyFile (.main .data) (.bak .data) rfl
  have h₁ : Only (.bak .idx) w w₁ := only_copyFile w (.main .idx) (.bak .idx) rfl
  have h₂ : Only (.bak .data) w₁ w₂ := only_copyFile w₁ (.main .data) (.bak .data) rfl
  have h₃ : Only (.bak .sti) w₂ w.copyToBackup := only_copyFile w₂ (.main .sti) (.bak .sti) rfl
  refine ⟨hlog.store_eq ▸ h.sound, (hlog.disk .idx).trans h.idx, (hlog.disk .data).trans h.data,
    ⟨List.drop (offsets 0 rs).length x, ?_⟩, ⟨List.drop rs.flatten.length y, ?_⟩⟩
  · rw [h₃.disk (.bak .idx) nofun, h₂.disk (.bak .idx) nofun]
    show (w.copyFile (.main .idx) (.bak .idx) rfl).disk (.bak .idx) = _
    unfold copyFile
    rw [h.idx, hx]
    simp only [setFile, Function.update_self]
    exact congrArg some (overwrite_zero x (offsets 0 rs))
  · rw [h₃.disk (.bak .data) nofun]
    show (w₁.copyFile (.main .data) (.bak .data) rfl).disk (.bak .data) = _
    unfold copyFile
    rw [h₁.disk (.main .data) nofun, h₁.disk (.bak .data) nofun, h.data, hy]
    simp only [setFile, Function.update_self]
    exact congrArg some (overwrite_zero y rs.flatten)

theorem Opened.made (h : Opened w rs) (hbad : bad ∉ backupSites) :
    Copied (w.declare.backup bad).copyToBackup rs := by
  have hlog := w.backup_sameLog bad
  refine Opened.copied ⟨hlog.store_eq ▸ h.sound, (hlog.disk .idx).trans h.idx, (hlog.disk .data).trans h.data,
    fun f => (hlog.streams f).trans (h.streams f)⟩ fun f => (backup_good w hbad f).2

theorem compact_backup_failed {last : Nat} (hlast : w.startIdx ≤ last) (hbad : bad ∈ backupSites) :
    w.compact bad last = (.returned false, w.declare.backup bad) := by
  obtain ⟨f, hf⟩ := w.backup_failed hbad
  have hany : (((w.declare.backup bad).streams (.bak .idx)).failed ||
      ((w.declare.backup bad).streams (.bak .data)).failed ||
      ((w.declare.backup bad).streams (.bak .sti)).failed) = true := by
    cases f <;> simp [hf]
  unfold compact
  rw [if_neg (Nat.not_lt.mpr hlast)]
  exact if_pos hany

/-- With the backups made, the call does its work on the log or recovers. -/
theorem compact_made {last : Nat} (hlast : w.startIdx ≤ last) (hbad : bad ∉ backupSites) :
    w.compact bad last =
      let w₁ := (w.declare.backup bad).copyToBackup
      let done := if w.ClearsAll last then w₁.clearAll bad last else w₁.compactPart bad last
      match done.1 with
      | some r => (r, done.2)
      | none => done.2.restore bad := by
  have hgood (f : File) : ((w.declare.backup bad).streams (.bak f)).failed = false := by
    rw [(w.backup_good hbad f).1]
  have hlog := (w.backup_sameLog bad).trans (copyToBackup_sameLog _)
  unfold compact
  rw [if_neg (Nat.not_lt.mpr hlast)]
  dsimp only
  rw [hgood, hgood, hgood, hlog.startIdx, hlog.entriesInStore]
  simp only [Bool.or_self, Bool.false_eq_true, if_false]
  rfl

theorem not_mem_both (hbad : bad ∈ backupSites) (last : Nat) : bad ∉ w.fatalSites last := by
  unfold fatalSites
  split
  · exact fun h => absurd hbad (by revert h; revert bad; decide)
  · exact fun h => absurd hbad (by revert h; revert bad; decide)

theorem phase_of_fatal {last : Nat} (hbad : bad ∈ w.fatalSites last) : bad.phase ≠ .restore := by
  unfold fatalSites at hbad
  revert hbad
  split <;> (revert bad; decide)

section Whole

variable (h : Opened w rs) {last : Nat} (hlast : w.startIdx ≤ last)
include h hlast

/-- The recovery loses the data file. -/
theorem compact_fatal (hbad : bad ∈ w.fatalSites last) :
    (w.compact bad last).1 = .thrown ∧ (w.compact bad last).2.disk (.main .data) = none := by
  have hmade : bad ∉ backupSites := fun hmem => not_mem_both hmem last hbad
  have hcopied := h.made hmade
  have hlog := (w.backup_sameLog bad).trans (copyToBackup_sameLog _)
  have hthrown (w' : World) := restore_thrown w' (phase_of_fatal hbad)
  rw [compact_made hlast hmade]
  dsimp only
  by_cases hclear : w.ClearsAll last
  · rw [fatalSites, if_pos hclear] at hbad
    rw [if_pos hclear, clearAll_failed (by rw [hcopied.idx]; nofun) (by rw [hcopied.data]; nofun) last hbad]
    exact hthrown _
  · rw [fatalSites, if_neg hclear] at hbad
    rw [if_neg hclear, compactPart_failed hcopied (by rw [hlog.startIdx]; exact hlast)
      (by rw [hlog.startIdx, hlog.entriesInStore]; exact Nat.not_le.mp hclear) hbad]
    exact hthrown _

theorem compact_clear (hclear : w.ClearsAll last) (hmade : bad ∉ backupSites) (hbad : bad ∉ w.fatalSites last) :
    (w.compact bad last).1 = .returned true := by
  have hcopied := h.made hmade
  rw [fatalSites, if_pos hclear] at hbad
  rw [compact_made hlast hmade]
  dsimp only
  rw [if_pos hclear, clearAll_good (by rw [hcopied.idx]; nofun) (by rw [hcopied.data]; nofun) last hbad]

/-- What is left is cached if there is room; else filling the cache throws, with the entries gone. -/
theorem compact_part (hclear : ¬ w.ClearsAll last) (hmade : bad ∉ backupSites) (hbad : bad ∉ w.fatalSites last) :
    (w.compact bad last).2.startIdx = last + 1 ∧
      (w.compact bad last).1 = if w.bufSize = 0 then .thrown else .returned true := by
  have hlog := (w.backup_sameLog bad).trans (copyToBackup_sameLog _)
  rw [fatalSites, if_neg hclear] at hbad
  have hlast' : ((w.declare.backup bad).copyToBackup).startIdx ≤ last := by
    rw [hlog.startIdx]
    exact hlast
  have hpart : last + 1 < ((w.declare.backup bad).copyToBackup).startIdx + ((w.declare.backup bad).copyToBackup).entriesInStore := by
    rw [hlog.startIdx, hlog.entriesInStore]
    exact Nat.not_le.mp hclear
  obtain ⟨hstart, hresult⟩ := compactPart_good (h.made hmade) hlast' hpart hbad
  rw [compact_made hlast hmade]
  dsimp only
  rw [if_neg hclear, hresult, ← hlog.bufSize]
  exact ⟨hstart, rfl⟩

/-- A failing call leaves the log alone when it fails for a backup, and in no other case. -/
theorem atomic_iff : Atomic bad w last ↔
    bad ∉ w.fatalSites last ∧ (w.ClearsAll last ∨ 0 < w.bufSize ∨ bad ∈ backupSites) := by
  by_cases hbackup : bad ∈ backupSites
  · refine iff_of_true (fun _ => ?_) ⟨not_mem_both hbackup last, .inr (.inr hbackup)⟩
    rw [compact_backup_failed hlast hbackup]
    have hlog := w.backup_sameLog bad
    exact ⟨hlog, fun index => by rw [hlog.store_eq]⟩
  by_cases hfatal : bad ∈ w.fatalSites last
  · obtain ⟨hthrown, hgone⟩ := compact_fatal h hlast hfatal
    refine iff_of_false (fun hatomic => ?_) (fun hcond => hcond.1 hfatal)
    have hsame := (hatomic (by rw [hthrown]; nofun)).1.disk .data
    rw [hgone, h.data] at hsame
    cases hsame
  by_cases hclear : w.ClearsAll last
  · have htrue := compact_clear h hlast hclear hbackup hfatal
    exact iff_of_true (fun hne => absurd htrue hne) ⟨hfatal, .inl hclear⟩
  obtain ⟨hstart, hresult⟩ := compact_part h hlast hclear hbackup hfatal
  rcases Nat.eq_zero_or_pos w.bufSize with hzero | hsize
  · rw [if_pos hzero] at hresult
    refine iff_of_false (fun hatomic => ?_) ?_
    · have hsame := (hatomic (by rw [hresult]; nofun)).1.startIdx
      omega
    · rintro ⟨-, hcase | hcase | hcase⟩
      · exact hclear hcase
      · omega
      · exact hbackup hcase
  · rw [if_neg (Nat.ne_of_gt hsize)] at hresult
    exact iff_of_true (fun hne => absurd hresult hne) ⟨hfatal, .inr (.inl hsize)⟩

end Whole

/-- Two entries, and the folder of an opened store. -/
def twoRecords : List (List UInt8) := [Entry.serialize ⟨1, 1, [7]⟩, Entry.serialize ⟨2, 1, [8, 9]⟩]

def twoWorld : World where
  disk
    | .main .idx => some (offsets 0 twoRecords)
    | .main .data => some twoRecords.flatten
    | .main .sti => some (some 1)
    | .bak _ => none
  streams
    | .main _ => ⟨true, false⟩
    | .bak _ => ⟨false, false⟩
  startIdx := 1
  entriesInStore := 2
  buf := ⟨twoRecords.map Entry.ofRecord, 1, 10⟩
  bufSize := 10

theorem opened_twoWorld : Opened twoWorld twoRecords where
  sound := ⟨⟨rfl, rfl, rfl, by decide⟩, rfl, rfl, by decide⟩
  idx := rfl
  data := rfl
  streams _ := rfl

theorem atomic_twoWorld : Atomic ⟨.backup, .reopen, .bak .data⟩ twoWorld 1 :=
  (atomic_iff opened_twoWorld (by decide)).mpr ⟨by decide, .inr (.inr (by decide))⟩

/-- The data file cannot be cut: the call throws, and there is no data file any more. -/
theorem not_atomic_twoWorld : ¬ Atomic ⟨.part, .truncate, .main .data⟩ twoWorld 1 := by
  have hfatal : (⟨.part, .truncate, .main .data⟩ : Site) ∈ twoWorld.fatalSites 1 := by decide
  obtain ⟨hthrown, hgone⟩ := compact_fatal opened_twoWorld (by decide) hfatal
  intro hatomic
  have hsame := (hatomic (by rw [hthrown]; nofun)).1.disk .data
  rw [hgone] at hsame
  cases hsame

end World

end Ns3Raft.Store
