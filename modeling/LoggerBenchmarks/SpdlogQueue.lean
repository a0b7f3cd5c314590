import Mathlib.Algebra.Group.Nat.Defs
import Mathlib.Data.List.Rotate
import Mathlib.Tactic.Common
import Mathlib.Tactic.SplitIfs

set_option autoImplicit false

/-!
# The circular queue of spdlog

`circular_q` of `spdlog/details/circular_q.h`: a vector with one cell more than the queue
holds, used as a ring. A push into a full queue gives up the oldest item.
-/
namespace LoggerBenchmarks.SpdlogQueue

/-- A `max_items` that leaves room in a `size_t` for one cell more. The largest `size_t` wraps around
to a queue that is disabled: it drops what is pushed. -/
structure MaxItems where
  count : ℕ
  fits : count + 1 < 2 ^ 64

structure CircularQ (α : Type) where
  maxItems : ℕ
  head : ℕ
  tail : ℕ
  overrunCounter : ℕ
  v : List α
  length_v : v.length = maxItems
  head_bound : 0 < maxItems → head < maxItems
  tail_bound : 0 < maxItems → tail < maxItems

namespace CircularQ

variable {α : Type}

/-- `circular_q(max_items)`: one cell is the marker of a full queue. -/
def create (blank : α) (maxItems : ℕ) : CircularQ α where
  maxItems := (maxItems + 1) % 2 ^ 64
  head := 0
  tail := 0
  overrunCounter := 0
  v := List.replicate ((maxItems + 1) % 2 ^ 64) blank
  length_v := List.length_replicate
  head_bound := id
  tail_bound := id

def pushBack (q : CircularQ α) (item : α) : CircularQ α :=
  if h : 0 < q.maxItems then
    let stored : CircularQ α :=
      { q with
        v := q.v.set q.tail item
        length_v := (List.length_set).trans q.length_v
        tail := (q.tail + 1) % q.maxItems
        tail_bound := fun _ => Nat.mod_lt _ h }
    if stored.tail = stored.head then
      { stored with
        head := (stored.head + 1) % stored.maxItems
        head_bound := fun _ => Nat.mod_lt _ h
        overrunCounter := stored.overrunCounter + 1 }
    else stored
  else q

def front (q : CircularQ α) (h : 0 < q.maxItems) : α := q.v.get ⟨q.head, q.length_v.symm ▸ q.head_bound h⟩

def size (q : CircularQ α) : ℕ := if q.tail ≥ q.head then q.tail - q.head else q.maxItems - (q.head - q.tail)

def popFront (q : CircularQ α) : CircularQ α :=
  { q with
    head := (q.head + 1) % q.maxItems
    head_bound := fun h => Nat.mod_lt _ h }

def empty (q : CircularQ α) : Bool := q.tail = q.head

def full (q : CircularQ α) : Bool := 0 < q.maxItems ∧ (q.tail + 1) % q.maxItems = q.head

def items (q : CircularQ α) : List α := (q.v.rotate q.head).take q.size

theorem mod_once {a m : ℕ} (h : a < 2 * m) : a % m = if a < m then a else a - m := by
  split_ifs with hlt
  · exact Nat.mod_eq_of_lt hlt
  · rw [Nat.mod_eq_sub_mod (by omega), Nat.mod_eq_of_lt (by omega)]

theorem size_bound (q : CircularQ α) (h : 0 < q.maxItems) : q.size < q.maxItems := by
  have hhead := q.head_bound h
  have htail := q.tail_bound h
  unfold size
  split_ifs <;> omega

theorem tail_eq (q : CircularQ α) (h : 0 < q.maxItems) : q.tail = (q.head + q.size) % q.maxItems := by
  have hhead := q.head_bound h
  have htail := q.tail_bound h
  have hsize := q.size_bound h
  rw [mod_once (by omega)]
  unfold size
  split_ifs <;> omega

theorem size_of_tail (q : CircularQ α) (h : 0 < q.maxItems) {n : ℕ} (hn : n < q.maxItems)
    (htail : q.tail = (q.head + n) % q.maxItems) : q.size = n := by
  have hhead := q.head_bound h
  rw [mod_once (by omega)] at htail
  unfold size
  split_ifs at htail ⊢ <;> omega

theorem empty_iff (q : CircularQ α) (h : 0 < q.maxItems) : q.empty = true ↔ q.size = 0 := by
  have hhead := q.head_bound h
  have htail := q.tail_bound h
  unfold empty size
  rw [decide_eq_true_iff]
  split_ifs <;> omega

theorem full_iff (q : CircularQ α) (h : 0 < q.maxItems) : q.full = true ↔ q.size + 1 = q.maxItems := by
  have hhead := q.head_bound h
  have htail := q.tail_bound h
  unfold full size
  rw [decide_eq_true_iff, and_iff_right h, mod_once (by omega)]
  split_ifs <;> omega

theorem length_items (q : CircularQ α) (h : 0 < q.maxItems) : q.items.length = q.size := by
  rw [items, List.length_take, List.length_rotate, q.length_v, Nat.min_eq_left (Nat.le_of_lt (q.size_bound h))]

theorem getElem?_items (q : CircularQ α) (h : 0 < q.maxItems) {i : ℕ} (hi : i < q.size) :
    q.items[i]? = q.v[(q.head + i) % q.maxItems]? := by
  have hsize := q.size_bound h
  rw [items, List.getElem?_take_of_lt hi, List.getElem?_rotate (by rw [q.length_v]; omega), q.length_v, Nat.add_comm i]

theorem front_eq (q : CircularQ α) (h : 0 < q.maxItems) (hsize : 0 < q.size) : q.items.head? = some (q.front h) := by
  rw [List.head?_eq_getElem?, q.getElem?_items h hsize, Nat.add_zero, Nat.mod_eq_of_lt (q.head_bound h), front, List.get_eq_getElem,
    List.getElem?_eq_getElem]

theorem size_popFront (q : CircularQ α) (h : 0 < q.maxItems) (hsize : 0 < q.size) : q.popFront.size = q.size - 1 := by
  have hhead := q.head_bound h
  have hbound := q.size_bound h
  have htail := q.tail_eq h
  refine q.popFront.size_of_tail h (show q.size - 1 < q.maxItems by omega) ?_
  change q.tail = ((q.head + 1) % q.maxItems + (q.size - 1)) % q.maxItems
  rw [htail, Nat.mod_add_mod]
  congr 1
  omega

theorem items_popFront (q : CircularQ α) (h : 0 < q.maxItems) (hsize : 0 < q.size) : q.popFront.items = q.items.tail := by
  have hpop := q.size_popFront h hsize
  have hp : 0 < q.popFront.maxItems := h
  refine List.ext_getElem? fun i => ?_
  rw [List.getElem?_tail]
  by_cases hi : i < q.popFront.size
  · rw [q.popFront.getElem?_items hp hi, q.getElem?_items h (by omega)]
    change q.v[((q.head + 1) % q.maxItems + i) % q.maxItems]? = _
    rw [Nat.mod_add_mod, Nat.add_assoc, Nat.add_comm 1 i]
  · rw [List.getElem?_eq_none (by rw [q.popFront.length_items hp]; omega),
      List.getElem?_eq_none (by rw [q.length_items h]; omega)]

theorem items_front (q : CircularQ α) (h : 0 < q.maxItems) (hsize : 0 < q.size) : q.items = q.front h :: q.popFront.items := by
  rw [q.items_popFront h hsize]
  exact List.eq_cons_of_mem_head? (q.front_eq h hsize)

theorem maxItems_pushBack (q : CircularQ α) (x : α) : (q.pushBack x).maxItems = q.maxItems := by
  unfold pushBack
  dsimp only
  split_ifs <;> rfl

section Push

variable (q : CircularQ α) (x : α) (h : 0 < q.maxItems)
include h

theorem v_pushBack : (q.pushBack x).v = q.v.set q.tail x := by
  unfold pushBack
  rw [dif_pos h]
  dsimp only
  split_ifs <;> rfl

theorem tail_pushBack : (q.pushBack x).tail = (q.tail + 1) % q.maxItems := by
  unfold pushBack
  rw [dif_pos h]
  dsimp only
  split_ifs <;> rfl

theorem head_pushBack : (q.pushBack x).head = if q.full then (q.head + 1) % q.maxItems else q.head := by
  unfold pushBack full
  rw [dif_pos h]
  dsimp only
  simp only [h, true_and, decide_eq_true_eq]
  split_ifs <;> rfl

theorem overrun_pushBack : (q.pushBack x).overrunCounter = q.overrunCounter + if q.full then 1 else 0 := by
  unfold pushBack full
  rw [dif_pos h]
  dsimp only
  simp only [h, true_and, decide_eq_true_eq]
  split_ifs <;> rfl

theorem size_pushBack : (q.pushBack x).size = if q.full then q.size else q.size + 1 := by
  have hp : 0 < (q.pushBack x).maxItems := (q.maxItems_pushBack x).symm ▸ h
  have hhead := q.head_bound h
  have hbound := q.size_bound h
  have htail := q.tail_eq h
  have hfull := q.full_iff h
  refine (q.pushBack x).size_of_tail hp ?_ ?_
  · rw [maxItems_pushBack]
    split_ifs with hf
    · exact hbound
    · exact Nat.lt_of_le_of_ne hbound fun heq => hf (hfull.2 heq)
  · rw [q.tail_pushBack x h, q.head_pushBack x h, maxItems_pushBack, htail, Nat.mod_add_mod]
    split_ifs
    · rw [Nat.mod_add_mod]
      congr 1
      omega
    · rfl

theorem getElem?_stored {i : ℕ} (hi : i ≤ q.size) :
    (q.v.set q.tail x)[(q.head + i) % q.maxItems]? = (q.items ++ [x])[i]? := by
  have hhead := q.head_bound h
  have hbound := q.size_bound h
  have htail := q.tail_eq h
  have hlength := q.length_items h
  by_cases hlast : i = q.size
  · subst hlast
    rw [← htail, List.getElem?_set_self (by rw [q.length_v]; exact q.tail_bound h), ← hlength, List.getElem?_concat_length]
  · have hne : q.tail ≠ (q.head + i) % q.maxItems := by
      rw [htail, mod_once (by omega), mod_once (by omega)]
      split_ifs <;> omega
    rw [List.getElem?_set_ne hne, List.getElem?_append_left (by omega), q.getElem?_items h (by omega)]

theorem items_pushBack : (q.pushBack x).items = if q.full then (q.items ++ [x]).tail else q.items ++ [x] := by
  have hp : 0 < (q.pushBack x).maxItems := (q.maxItems_pushBack x).symm ▸ h
  have hsize := q.size_pushBack x h
  have hlength := q.length_items h
  refine List.ext_getElem? fun i => ?_
  by_cases hi : i < (q.pushBack x).size
  · rw [(q.pushBack x).getElem?_items hp hi, q.v_pushBack x h, q.head_pushBack x h, maxItems_pushBack]
    split_ifs at hsize ⊢ with hf
    · rw [Nat.mod_add_mod, Nat.add_assoc, Nat.add_comm 1 i, q.getElem?_stored x h (by omega), List.getElem?_tail]
    · exact q.getElem?_stored x h (by omega)
  · rw [List.getElem?_eq_none (by rw [(q.pushBack x).length_items hp]; omega)]
    symm
    refine List.getElem?_eq_none ?_
    split_ifs at hsize ⊢
    · rw [List.length_tail, List.length_append, List.length_singleton]
      omega
    · rw [List.length_append, List.length_singleton]
      omega

end Push

theorem maxItems_create (blank : α) (maxItems : MaxItems) : (create blank maxItems.count).maxItems = maxItems.count + 1 :=
  Nat.mod_eq_of_lt maxItems.fits

theorem items_create (blank : α) (n : ℕ) : (create blank n).items = [] := List.take_zero

end CircularQ

end LoggerBenchmarks.SpdlogQueue
