/-!
The place of the next declaration in a frame. Parameters go up from the fourth byte above the base,
locals go down from the second byte below it.
-/

namespace Triad

structure FrameCursor where
  offset : Int
  step : Int
  deriving DecidableEq, Repr

namespace FrameCursor

def params : FrameCursor := ⟨4, 1⟩
def locals : FrameCursor := ⟨-2, -1⟩
def classBody : FrameCursor := ⟨2, -1⟩

/-- The cursor behind a declaration of `size` bytes, which takes the offset of this one. -/
def declare (c : FrameCursor) (size : Int) : FrameCursor :=
  { c with offset := c.offset + size * c.step }

/-- Only the offset goes back, the direction stays. -/
def restore (c : FrameCursor) (offset : Int) : FrameCursor :=
  { c with offset := offset }

end FrameCursor

end Triad
