import Mathlib.Data.List.Basic
import Mathlib.Data.BitVec

/-!
# Segments of lists and little-endian words

A buffer is a list. A segment is what stands between two positions, and a splice replaces a segment.
-/

namespace Aveo.Lib

abbrev Byte := BitVec 8

section Segments

variable {α : Type} {l r new : List α} {pos len p k : Nat}

/-- `len` elements from a position on. -/
def segment (l : List α) (pos len : Nat) : List α := (l.drop pos).take len

/-- The list with `len` elements from a position on replaced. -/
def splice (l : List α) (pos len : Nat) (new : List α) : List α := l.take pos ++ new ++ l.drop (pos + len)

theorem length_segment (h : pos + len ≤ l.length) : (segment l pos len).length = len := by
  rw [segment, List.length_take, List.length_drop]
  omega

theorem length_splice (h : pos + len ≤ l.length) (hnew : new.length = len) : (splice l pos len new).length = l.length := by
  simp only [splice, List.length_append, List.length_take, List.length_drop]
  omega

theorem segment_append_left (h : pos + len ≤ l.length) : segment (l ++ r) pos len = segment l pos len := by
  rw [segment, segment, List.drop_append_of_le_length (by omega), List.take_append_of_le_length]
  rw [List.length_drop]
  omega

theorem segment_append_right : segment (l ++ r) (l.length + p) k = segment r p k := by
  rw [segment, segment, ← List.drop_drop, List.drop_left]

theorem segment_zero_length : segment l 0 l.length = l := by
  simp [segment]

theorem splice_append_left (h : pos + len ≤ l.length) : splice (l ++ r) pos len new = splice l pos len new ++ r := by
  rw [splice, splice, List.take_append_of_le_length (by omega), List.drop_append_of_le_length h, ← List.append_assoc]

theorem splice_splice {a b : List α} (h : pos ≤ l.length) (ha : a.length = len) :
    splice (splice l pos len a) (pos + len) k b = splice l pos (len + k) (a ++ b) := by
  have hpos : (l.take pos).length = pos := by
    rw [List.length_take]
    omega
  have hhead : (l.take pos ++ a).length = pos + len := by
    rw [List.length_append, hpos, ha]
  rw [splice, splice, splice, List.take_left' hhead, ← List.drop_drop, List.drop_left' hhead, List.drop_drop,
    Nat.add_assoc, List.append_assoc (l.take pos)]

theorem segment_splice_self (h : pos ≤ l.length) : segment (splice l pos len new) pos new.length = new := by
  have hpos : (l.take pos).length = pos := by
    rw [List.length_take]
    omega
  have hcut := segment_append_right (l := l.take pos) (r := new ++ l.drop (pos + len)) (p := 0) (k := new.length)
  rw [hpos, Nat.add_zero] at hcut
  rw [splice, List.append_assoc, hcut, segment_append_left (by omega), segment_zero_length]

theorem segment_splice_of_le (hpos : pos ≤ l.length) (h : p + k ≤ pos) : segment (splice l pos len new) p k = segment l p k := by
  have hlen : (l.take pos).length = pos := by
    rw [List.length_take]
    omega
  have hl : l = l.take pos ++ l.drop pos := (List.take_append_drop pos l).symm
  rw [splice, List.append_assoc, segment_append_left (by omega)]
  nth_rewrite 2 [hl]
  rw [segment_append_left (by omega)]

end Segments

/-! ### Words -/

/-- The little-endian bytes of a word. -/
def leBytes {w : Nat} (k : Nat) (v : BitVec w) : List Byte := (List.range k).map fun i => v.extractLsb' (8 * i) 8

@[simp] theorem length_leBytes {w : Nat} (k : Nat) (v : BitVec w) : (leBytes k v).length = k := by
  simp [leBytes]

end Aveo.Lib
