import Mathlib.Data.List.Basic
import Mathlib.Tactic.SplitIfs

/-!
# Cells of memory

A block of memory is the list of its cells. What goes beyond its end has no result.

* `store`, `load`, `move`: writing, reading, and copying within a block.
* `getElem?_patch`: the cells after a write.
-/

namespace Foundations

namespace Memory

variable {T : Type} {cells vals : List T} {pos n : ℕ}

/-- The cells with `vals` at `pos`. -/
def patch (cells : List T) (pos : ℕ) (vals : List T) : List T :=
  cells.take pos ++ vals ++ cells.drop (pos + vals.length)

/-- Write, if the values fit. -/
def store (cells : List T) (pos : ℕ) (vals : List T) : Option (List T) :=
  if pos + vals.length ≤ cells.length then some (patch cells pos vals) else none

/-- Read `n` cells, if they are there. -/
def load (cells : List T) (pos n : ℕ) : Option (List T) :=
  if pos + n ≤ cells.length then some ((cells.drop pos).take n) else none

/-- Copy `n` cells from `src` to `dst`, as if through a buffer. -/
def move (cells : List T) (dst src n : ℕ) : Option (List T) :=
  (load cells src n).bind (store cells dst)

theorem store_eq_some (h : pos + vals.length ≤ cells.length) :
    store cells pos vals = some (patch cells pos vals) := if_pos h

theorem load_eq_some (h : pos + n ≤ cells.length) :
    load cells pos n = some ((cells.drop pos).take n) := if_pos h

theorem move_eq_some {dst src : ℕ} (hsrc : src + n ≤ cells.length)
    (hdst : dst + n ≤ cells.length) :
    move cells dst src n = some (patch cells dst ((cells.drop src).take n)) := by
  rw [move, load_eq_some hsrc, Option.bind_some]
  apply store_eq_some
  rw [List.length_take, List.length_drop]
  omega

theorem patch_nil (cells : List T) (pos : ℕ) : patch cells pos [] = cells := by
  rw [patch, List.append_nil, List.length_nil, Nat.add_zero, List.take_append_drop]

theorem length_patch (h : pos + vals.length ≤ cells.length) :
    (patch cells pos vals).length = cells.length := by
  simp only [patch, List.length_append, List.length_take, List.length_drop]
  omega

theorem getElem?_patch (h : pos + vals.length ≤ cells.length) (i : ℕ) :
    (patch cells pos vals)[i]? =
      if i < pos then cells[i]?
      else if i < pos + vals.length then vals[i - pos]? else cells[i]? := by
  have htake : (cells.take pos).length = pos := by
    rw [List.length_take]
    omega
  unfold patch
  split_ifs with h₁ h₂
  · rw [List.append_assoc, List.getElem?_append_left (by omega), List.getElem?_take_of_lt h₁]
  · rw [List.append_assoc, List.getElem?_append_right (by omega), htake,
      List.getElem?_append_left (by omega)]
  · rw [List.getElem?_append_right (by rw [List.length_append]; omega), List.getElem?_drop,
      List.length_append, htake]
    congr 1
    omega

/-! ### What the first cells are then -/

/-- Behind the first `n` cells. -/
theorem take_patch_append (h : n + vals.length ≤ cells.length) :
    (patch cells n vals).take (n + vals.length) = cells.take n ++ vals := by
  rw [patch]
  apply List.take_left'
  rw [List.length_append, List.length_take]
  omega

/-- Among the first `n` cells. -/
theorem take_patch (h : pos + vals.length ≤ n) (hn : n ≤ cells.length) :
    (patch cells pos vals).take n = patch (cells.take n) pos vals := by
  have hlen : (cells.take n).length = n := by
    rw [List.length_take]
    omega
  ext1 i
  rw [getElem?_patch (by omega), List.getElem?_take, getElem?_patch (by omega)]
  by_cases hi : i < n
  · rw [if_pos hi, List.getElem?_take_of_lt hi]
  · rw [if_neg hi, if_neg (by omega), if_neg (by omega), List.getElem?_take_eq_none (by omega)]

/-- The cells from `p` on moved up, and `vals` put in between. -/
theorem take_patch_insert {p : ℕ} (hp : p ≤ n) (hn : n + vals.length ≤ cells.length) :
    (patch (patch cells (p + vals.length) ((cells.drop p).take (n - p))) p vals).take
        (n + vals.length) =
      (cells.take n).take p ++ vals ++ (cells.take n).drop p := by
  have hmoved : ((cells.drop p).take (n - p)).length = n - p := by
    rw [List.length_take, List.length_drop]
    omega
  have hlen : (patch cells (p + vals.length) ((cells.drop p).take (n - p))).length =
      cells.length := length_patch (by omega)
  ext1 i
  rw [List.getElem?_take, getElem?_patch (by omega), getElem?_patch (by omega), hmoved]
  simp only [List.getElem?_append, List.getElem?_take, List.getElem?_drop, List.length_append,
    List.length_take]
  grind

/-- The cells from `last` on moved down to `first`. -/
theorem take_patch_erase {first last : ℕ} (hfirst : first ≤ last) (hlast : last ≤ n)
    (hn : n ≤ cells.length) :
    (patch cells first ((cells.drop last).take (n - last))).take (n - (last - first)) =
      (cells.take n).take first ++ (cells.take n).drop last := by
  have hmoved : ((cells.drop last).take (n - last)).length = n - last := by
    rw [List.length_take, List.length_drop]
    omega
  ext1 i
  rw [List.getElem?_take, getElem?_patch (by omega), hmoved]
  simp only [List.getElem?_append, List.getElem?_take, List.getElem?_drop, List.length_take]
  grind

end Memory

end Foundations
