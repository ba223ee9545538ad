import Terrier.Storage.ProjectedRow

/-!
`StorageUtil::ApplyDelta` on the bytes of attributes, for rows and for rows of
`ProjectedColumns`. Both have column ids, and for each column memory and a bit of a NULL
bitmap. A copy takes its size from a `uint8_t`.
-/

namespace Terrier.StorageUtil

structure Attr where
  bytes : Nat → UInt8
  notNull : Bool

abbrev AttrRow := List (ColId × Attr)

/-- A source that is NULL only clears the bit. -/
def copyWithNullCheck (source target : Attr) (size : Nat) : Attr :=
  if source.notNull then ⟨fun i => if i < size then source.bytes i else target.bytes i, true⟩
  else { target with notNull := false }

def applyDelta (attrSize : ColId → Nat) : AttrRow → AttrRow → AttrRow
  | [], buffer => buffer
  | _, [] => []
  | (d, v) :: delta, (b, w) :: buffer =>
    if d = b then
      (b, copyWithNullCheck v w (attrSize d % 2 ^ 8)) :: applyDelta attrSize delta buffer
    else if d > b then (b, w) :: applyDelta attrSize ((d, v) :: delta) buffer
    else applyDelta attrSize delta ((b, w) :: buffer)
termination_by delta buffer => delta.length + buffer.length

/-- The deltas of a version chain, the newest first. -/
def applyDeltas (attrSize : ColId → Nat) (deltas : List AttrRow) (buffer : AttrRow) : AttrRow :=
  deltas.foldl (fun buffer delta => applyDelta attrSize delta buffer) buffer

end Terrier.StorageUtil
