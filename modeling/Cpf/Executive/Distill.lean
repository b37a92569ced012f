import Cpf.Executive.Private

/-!
# Distilling private heaps into checkpoints

The merge loops of `private.c`: a worker's private, share-private and kill-private bytes go into
the partial checkpoint of its group, an older committed checkpoint goes into a newer one, and a
committed checkpoint goes into the main process. A private merge that returns 1 leaves the bytes
it has already merged; the error carries the checkpoint in that state.
-/

namespace Cpf.Executive
open Heap

/-- A private heap with its shadow and the range that was touched; also a share-private heap with
its shadow and range. -/
structure Image where
  priv : Heap
  shadow : Heap
  range : ShadowRange

namespace Image

def bytes (src : Image) : List ℕ :=
  forRange (unsigned src.range.lowestInclusive) (unsigned src.range.highestExclusive) 1

/-- The starts of the words that the merge loops visit word by word. -/
def words (src : Image) : List ℕ :=
  forRange (unsigned (roundDown src.range.lowestInclusive bytesPerWord))
    (unsigned (roundUp src.range.highestExclusive bytesPerWord)) bytesPerWord

def set (dst : Image) (k : ℕ) (value mark : UInt8) : Image :=
  { dst with
    priv := Function.update dst.priv k value
    shadow := Function.update dst.shadow k mark }

/-- The merge of the worker's byte `k`, in the group of the checkpoint. -/
def mergeByte (src dst : Image) (k : ℕ) : Except Image Image :=
  if src.shadow k = readLiveIn then
    if dst.shadow k = liveIn then
      .ok { dst with shadow := Function.update dst.shadow k readLiveIn }
    else if dst.shadow k = readLiveIn then .ok dst
    else .error dst
  else if dst.shadow k = readLiveIn then .error dst
  else if src.shadow k > dst.shadow k then .ok (dst.set k (src.priv k) (src.shadow k))
  else .ok dst

def mergeWord (src dst : Image) (i : ℕ) : Except Image Image :=
  if load bytesPerWord src.shadow i = V64 liveIn then .ok dst
  else ((List.range bytesPerWord).map (fun j => i + j)).foldlM (mergeByte src) dst

def distillWorkerPrivateIntoPartial (sizeofPrivate : ℕ) (src partialChkpt : Image) :
    Except Image Image := do
  let dst ← if 0 < unsigned sizeofPrivate then src.words.foldlM (mergeWord src) partialChkpt
    else .ok partialChkpt
  return { dst with range := dst.range.widen src.range }

/-- The merge of byte `i` of an earlier checkpoint group. -/
def commitByte (src dst : Image) (i : ℕ) : Except Image Image :=
  if dst.shadow i = liveIn then
    if wasWrittenEver (src.shadow i) then .ok (dst.set i (src.priv i) oldIteration) else .ok dst
  else if dst.shadow i = readLiveIn then
    if wasWrittenEver (src.shadow i) then .error dst else .ok dst
  else .ok dst

def distillCommittedPrivateIntoPartial (sizeofPrivate : ℕ) (commit partialChkpt : Image) :
    Except Image Image := do
  let dst ← if 0 < unsigned sizeofPrivate then commit.bytes.foldlM (commitByte commit) partialChkpt
    else .ok partialChkpt
  return { dst with range := dst.range.widen commit.range }

def distillCommittedPrivateIntoMain (sizeofPrivate : ℕ) (commit : Image) (main : Heap) : Heap :=
  if 0 < unsigned sizeofPrivate then
    commit.bytes.foldl (fun dst i =>
      if wasWrittenEver (commit.shadow i) then Function.update dst i (commit.priv i) else dst) main
  else main

def shareByte (src dst : Image) (k : ℕ) : Image :=
  if src.shadow k ≠ src.priv k then dst.set k (src.priv k) (~~~ src.priv k) else dst

def distillWorkerShareprivateIntoPartial (sizeofShareprivate : ℕ) (src partialChkpt : Image) :
    Image :=
  let dst := if 0 < unsigned sizeofShareprivate then
      src.words.foldl (fun dst i =>
        if load bytesPerWord src.priv i = load bytesPerWord src.shadow i then dst
        else ((List.range bytesPerWord).map (fun j => i + j)).foldl (shareByte src) dst)
        partialChkpt
    else partialChkpt
  { dst with range := dst.range.widen src.range }

def distillCommittedShareprivateIntoPartial (sizeofShareprivate : ℕ)
    (commit partialChkpt : Image) : Image :=
  let dst := if 0 < unsigned sizeofShareprivate then
      commit.bytes.foldl (shareByte commit) partialChkpt
    else partialChkpt
  { dst with range := dst.range.widen commit.range }

def distillCommittedShareprivateIntoMain (sizeofShareprivate : ℕ) (commit : Image) (main : Heap) :
    Heap :=
  if 0 < unsigned sizeofShareprivate then
    commit.bytes.foldl (fun dst i =>
      if commit.priv i ≠ commit.shadow i then Function.update dst i (commit.priv i) else dst) main
  else main

def initializePartial (sizeofPrivate : ℕ) (dst : Image) : Image :=
  { dst with
    shadow := memset dst.shadow 0 liveIn sizeofPrivate
    range := ShadowRange.reset }

/-- The share-private half of `__specpriv_initialize_partial_checkpoint`. -/
def initializeSharePartial (sizeofShareprivate : ℕ) (dst : Image) : Image where
  priv := memset dst.priv 0 liveIn sizeofShareprivate
  shadow := memset dst.shadow 0 liveIn sizeofShareprivate
  range := ShadowRange.reset

end Image

/-- `memcpy` of `len` bytes at the same offset of another heap. -/
def memcpy (dst src : Heap) (len : ℕ) : Heap := fun k => if k < len then src k else dst k

def distillWorkerKillprivateIntoPartial (onIter : Bool) (sizeofKillprivate : ℕ)
    (src partialChkpt : Heap) : Heap :=
  if onIter then memcpy partialChkpt src (unsigned sizeofKillprivate) else partialChkpt

def distillCommittedKillprivateIntoMain (sizeofKillprivate : ℕ) (commit main : Heap) : Heap :=
  memcpy main commit (unsigned sizeofKillprivate)

namespace Worker

def image (w : Worker) : Image := ⟨w.priv, w.shadow, w.range⟩

end Worker
end Cpf.Executive
