import QStore.Lib.Pages

/-!
# QStore.Operators.LVector

The `lVector` (`RUNTIME/VCTR/lua/lVector.lua`) an operator reads from: elements,
handed out chunk by chunk. Every chunk holds `max_num_in_chunk` elements, the
last one maybe fewer. `QStore.Vctr.Contents` shows that the runtime keeps a
vector so.
-/

namespace QStore.Operators

/-- An `lVector` that has been evaluated: its elements and `max_num_in_chunk`. -/
structure LVector (α : Type) where
  elems : List α
  maxNumInChunk : Nat
  pos : 0 < maxNumInChunk

variable {α : Type} {v : LVector α} {i : Nat}

/-- `get_chunk`. Past the end there is no chunk, and the length is 0. -/
def LVector.getChunk (v : LVector α) (chunkIdx : Nat) : List α :=
  page v.maxNumInChunk v.elems chunkIdx

theorem LVector.length_getChunk :
    (v.getChunk i).length = min v.maxNumInChunk (v.elems.length - i * v.maxNumInChunk) :=
  length_page

/-- The smallest `max_num_in_chunk` is one. -/
theorem sixtyFour_pos : 0 < 64 := by decide

/-- The chunk that holds element `i`, from that element on. -/
theorem LVector.drop_getChunk :
    (v.getChunk (i / v.maxNumInChunk)).drop (i % v.maxNumInChunk) =
      (v.elems.drop i).take (v.maxNumInChunk - i % v.maxNumInChunk) := by
  rw [getChunk, page, List.drop_take, List.drop_drop]
  congr 2
  rw [Nat.mul_comm]
  exact Nat.div_add_mod i v.maxNumInChunk

end QStore.Operators
