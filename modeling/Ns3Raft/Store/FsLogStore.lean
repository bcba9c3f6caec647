import Mathlib.Data.UInt
import Ns3Raft.Lib.Records

/-! # The file-backed log store

`fs_log_store` over its three files and the cache of the last entries. The
index file is held as its list of `ulong`s, the data file byte by byte. `none`
stands for an exception: an index out of range, a read that fails, a buffer too
short to decode.
-/

namespace Ns3Raft.Store

open Records

/-- `log_entry`, with the payload as it lies in its buffer. -/
structure Entry where
  term : UInt64
  valType : UInt8
  payload : List UInt8
  deriving DecidableEq, Repr

/-! ## Bytes -/

/-- `buffer::put` of `n` bytes, the low one first. -/
def putBytes : Nat → Nat → List UInt8
  | 0, _ => []
  | n + 1, v => UInt8.ofNat (v % 256) :: putBytes n (v / 256)

def getBytes : List UInt8 → Nat
  | [] => 0
  | b :: bs => b.toNat + 256 * getBytes bs

def szUlong : Nat := 8

namespace Entry

def serialize (e : Entry) : List UInt8 := putBytes szUlong e.term.toNat ++ e.valType :: e.payload

def deserialize (buf : List UInt8) : Option Entry :=
  if buf.length < szUlong then none
  else
    match buf.drop szUlong with
    | [] => none
    | t :: payload => some ⟨UInt64.ofNat (getBytes (buf.take szUlong)), t, payload⟩

/-- The constant entry of an empty store. -/
def emptyEntry : Entry := ⟨0, 1, []⟩

end Entry

/-! ## The cache -/

/-- `log_store_buffer`. -/
structure LogBuffer where
  buf : List Entry
  startIdx : Nat
  maxSize : Nat
  deriving DecidableEq, Repr

namespace LogBuffer

def lastIdx (b : LogBuffer) : Nat := b.startIdx + b.buf.length

def firstIdx (b : LogBuffer) : Nat := b.startIdx

def lastEntry (b : LogBuffer) : Option Entry := b.buf.getLast?

def get (b : LogBuffer) (idx : Nat) : Option Entry :=
  if idx < b.startIdx then none else b.buf[idx - b.startIdx]?

def getTerm (b : LogBuffer) (idx : Nat) : UInt64 :=
  match b.get idx with
  | none => 0
  | some e => e.term

/-- An index below the window leaves the cache as it is. -/
def trim (b : LogBuffer) (start : Nat) : LogBuffer :=
  if start < b.startIdx then b else { b with buf := b.buf.take (start - b.startIdx) }

def append (b : LogBuffer) (e : Entry) : LogBuffer :=
  let buf := b.buf ++ [e]
  if b.maxSize < buf.length then { b with buf := buf.tail, startIdx := b.startIdx + 1 }
  else { b with buf := buf }

def reset (b : LogBuffer) (start : Nat) : LogBuffer := { b with buf := [], startIdx := start }

/-- The entries of `[start, end)` as far as they are cached, in a vector with
room for the ones before. The outer `none` is an access beyond the cache. -/
def fill (b : LogBuffer) (start stop : Nat) : Option (List (Option Entry)) :=
  if stop < b.startIdx then some []
  else if b.startIdx < start then
    (readAt b.buf (start - b.startIdx) (stop - start)).map fun es => es.map some
  else
    (readAt b.buf 0 (stop - b.startIdx)).map fun es =>
      List.replicate (b.startIdx - start) none ++ es.map some

end LogBuffer

/-! ## The store -/

/-- `store.idx`, `store.dat` and `store.sti`. -/
structure Files where
  idx : List Nat
  data : List UInt8
  sti : Option Nat
  deriving DecidableEq, Repr

def Files.new : Files := ⟨[], [], none⟩

structure FsLogStore where
  files : Files
  entriesInStore : Nat
  startIdx : Nat
  buf : LogBuffer
  bufSize : Nat
  deriving DecidableEq, Repr

/-- What `pack` hands over: the index part and the data part. The empty buffer
is the one without an index part. -/
structure Pack where
  idx : List Nat
  data : List UInt8
  deriving DecidableEq, Repr

def int32Max : Nat := 2 ^ 31 - 1

namespace FsLogStore

def nextSlot (s : FsLogStore) : Nat := s.startIdx + s.entriesInStore

/-- Where the cache begins when it is filled again. -/
def windowStart (s : FsLogStore) : Nat :=
  if s.bufSize < s.entriesInStore then s.entriesInStore + s.startIdx - s.bufSize else s.startIdx

/-- The loop of `fill_buffer`: records up to the next offset, the last one up to
the end of the data file. -/
def fillLoop (data : List UInt8) (b : LogBuffer) : Nat → List Nat → Option LogBuffer
  | dataStart, [] =>
      if data.length < dataStart then none
      else (Entry.deserialize (data.drop dataStart)).map b.append
  | dataStart, dataEnd :: rest =>
      if dataEnd < dataStart then none
      else
        match (readAt data dataStart (dataEnd - dataStart)).bind Entry.deserialize with
        | none => none
        | some e => fillLoop data (b.append e) dataEnd rest

def fillBuffer (s : FsLogStore) : Option FsLogStore :=
  if s.files.idx = [] then some s
  else
    match s.files.idx.drop (s.buf.firstIdx - s.startIdx) with
    | [] => none
    | dataStart :: rest =>
        (fillLoop s.files.data s.buf dataStart rest).map fun b => { s with buf := b }

/-- The constructor. A negative size asks for an unlimited cache. -/
def create (files : Files) (bufSize : Int) : Option FsLogStore :=
  let size := if bufSize < 0 then int32Max else bufSize.toNat
  let s : FsLogStore :=
    match files.sti with
    | some start => ⟨files, files.idx.length, start, ⟨[], 0, size⟩, size⟩
    | none => ⟨{ files with sti := some 1 }, 0, 1, ⟨[], 0, size⟩, size⟩
  fillBuffer { s with buf := s.buf.reset s.windowStart }

def lastEntry (s : FsLogStore) : Entry := s.buf.lastEntry.getD Entry.emptyEntry

def append (s : FsLogStore) (e : Entry) : FsLogStore :=
  { s with
    files := { s.files with
      idx := s.files.idx ++ [s.files.data.length], data := s.files.data ++ e.serialize },
    buf := s.buf.append e,
    entriesInStore := s.entriesInStore + 1 }

/-- The files are cut only when index records are left over behind the new one. -/
def truncateTo (f : Files) (nidxLen ndataLen : Nat) : Files :=
  if nidxLen < f.idx.length then
    { f with idx := f.idx.take nidxLen, data := f.data.take ndataLen }
  else f

def writeAt (s : FsLogStore) (index : Nat) (e : Entry) : Option FsLogStore :=
  if index < s.startIdx ∨ s.nextSlot < index then none
  else
    let localIdx := index - s.startIdx
    let dataPos? :=
      if localIdx < s.entriesInStore then s.files.idx[localIdx]? else some s.files.data.length
    match dataPos? with
    | none => none
    | some dataPos =>
        let files := { s.files with
          idx := overwrite s.files.idx localIdx [dataPos],
          data := overwrite s.files.data dataPos e.serialize }
        let files := truncateTo files (localIdx + 1) (dataPos + e.serialize.length)
        let buf := if localIdx < s.entriesInStore then s.buf.trim index else s.buf
        some { s with files := files, buf := buf.append e, entriesInStore := localIdx + 1 }

/-- The record at a position of the index file that is not the last one. -/
def readRecord (s : FsLogStore) (k : Nat) : Option (List UInt8) :=
  match s.files.idx[k]?, s.files.idx[k + 1]? with
  | some dPos, some endPos =>
      if endPos < dPos then none else readAt s.files.data dPos (endPos - dPos)
  | _, _ => none

/-- The part of `log_entries` that is read from the files. -/
def readRange (s : FsLogStore) (k : Nat) : Nat → Option (List Entry)
  | 0 => some []
  | n + 1 =>
      match (s.readRecord k).bind Entry.deserialize, readRange s (k + 1) n with
      | some e, some es => some (e :: es)
      | _, _ => none

/-- The inner `none` is the null pointer for an empty range. A vector shorter
than what is read from the files would be written beyond its end. -/
def logEntries (s : FsLogStore) (start stop : Nat) : Option (Option (List (Option Entry))) :=
  if start < s.startIdx then none
  else if stop ≤ start ∨ s.nextSlot ≤ start then some none
  else
    let goodEnd := min stop s.nextSlot
    match s.buf.fill start goodEnd with
    | none => none
    | some results =>
        if start < s.buf.firstIdx then
          let cnt := s.buf.firstIdx - start
          if results.length < cnt then none
          else (s.readRange (start - s.startIdx) cnt).map fun es =>
            some (es.map some ++ results.drop cnt)
        else some (some results)

/-- The inner `none` is the null pointer for an index past the end. -/
def entryAt (s : FsLogStore) (index : Nat) : Option (Option Entry) :=
  match s.buf.get index with
  | some e => some (some e)
  | none =>
      if index < s.startIdx then none
      else if s.nextSlot ≤ index then some none
      else ((s.readRecord (index - s.startIdx)).bind Entry.deserialize).map some

/-- The first eight bytes of a record are its term. -/
def termAt (s : FsLogStore) (index : Nat) : Option UInt64 :=
  if s.buf.firstIdx ≤ index ∧ index < s.buf.lastIdx then some (s.buf.getTerm index)
  else if index < s.startIdx then none
  else
    match s.files.idx[index - s.startIdx]? with
    | none => none
    | some pos => (readAt s.files.data pos szUlong).map fun bs => UInt64.ofNat (getBytes bs)

def pack (s : FsLogStore) (index cnt : Nat) : Option Pack :=
  if index < s.startIdx then none
  else
    let offset := index - s.startIdx
    if s.entriesInStore ≤ offset then some ⟨[], []⟩
    else
      let endOffset := min (offset + cnt) s.entriesInStore
      let endOfData? :=
        if endOffset = s.entriesInStore then some s.files.data.length else s.files.idx[endOffset]?
      match readAt s.files.idx offset (endOffset - offset), endOfData? with
      | some (startOfData :: rest), some endOfData =>
          if endOfData < startOfData then none
          else (readAt s.files.data startOfData (endOfData - startOfData)).map fun data =>
            ⟨startOfData :: rest, data⟩
      | _, _ => none

def applyPack (s : FsLogStore) (index : Nat) (p : Pack) : Option FsLogStore :=
  if index < s.startIdx then none
  else
    let localIdx := index - s.startIdx
    let dataPos? :=
      if localIdx = s.entriesInStore then some s.files.data.length else s.files.idx[localIdx]?
    match dataPos?, p.idx with
    | some prevDataPos, firstIdx :: _ =>
        let idx :=
          if prevDataPos = firstIdx then p.idx
          else p.idx.map fun pos => pos + prevDataPos - firstIdx
        let files := { s.files with
          idx := overwrite s.files.idx localIdx idx,
          data := overwrite s.files.data prevDataPos p.data }
        let files := truncateTo files (localIdx + idx.length) (prevDataPos + p.data.length)
        let s := { s with files := files, entriesInStore := localIdx + idx.length }
        fillBuffer { s with buf := s.buf.reset s.windowStart }
    | _, _ => none

def compact (s : FsLogStore) (lastLogIndex : Nat) : Option FsLogStore :=
  if lastLogIndex < s.startIdx then none
  else if s.nextSlot ≤ lastLogIndex + 1 then
    some { s with
      files := ⟨[], [], some (lastLogIndex + 1)⟩, startIdx := lastLogIndex + 1,
      entriesInStore := 0, buf := s.buf.reset (lastLogIndex + 1) }
  else
    let k := lastLogIndex + 1 - s.startIdx
    match s.files.idx[k]? with
    | none => none
    | some dataPos =>
        let files : Files :=
          ⟨(s.files.idx.drop k).map fun pos => pos - dataPos, s.files.data.drop dataPos,
            some (lastLogIndex + 1)⟩
        let s := { s with
          files := files, startIdx := lastLogIndex + 1, entriesInStore := s.entriesInStore - k }
        fillBuffer { s with buf := s.buf.reset s.windowStart }

/-- Close the store and construct a new one on the same folder. -/
def reopen (s : FsLogStore) : Option FsLogStore := create s.files s.bufSize

end FsLogStore

end Ns3Raft.Store
