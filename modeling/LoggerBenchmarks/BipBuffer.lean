import Mathlib.Data.List.Range
import Mathlib.Logic.Function.Basic
import Mathlib.Tactic.Common

set_option autoImplicit false

/-!
# Two-stretch ring buffers

A ring whose content lies in one piece, or in two: from the read index to a stop, and
from the beginning to the write index. The writer may fill cells from the write index
up to a bound, which never comes past an unread cell.
-/
namespace BipBuffer

variable {α : Type}

def stretch (mem : ℕ → α) (i j : ℕ) : List α := (List.range' i (j - i)).map mem

theorem length_stretch (mem : ℕ → α) (i j : ℕ) : (stretch mem i j).length = j - i := by
  rw [stretch, List.length_map, List.length_range']

@[simp] theorem stretch_self (mem : ℕ → α) (i : ℕ) : stretch mem i i = [] := by
  rw [stretch, Nat.sub_self]
  rfl

theorem stretch_append (mem : ℕ → α) {i j k : ℕ} (hij : i ≤ j) (hjk : j ≤ k) :
    stretch mem i j ++ stretch mem j k = stretch mem i k := by
  obtain ⟨a, rfl⟩ := Nat.exists_eq_add_of_le hij
  obtain ⟨b, rfl⟩ := Nat.exists_eq_add_of_le hjk
  have ha : i + a - i = a := by omega
  have hb : i + a + b - (i + a) = b := by omega
  have hab : i + a + b - i = a + b := by omega
  rw [stretch, stretch, stretch, ha, hb, hab, ← List.map_append, List.range'_append_1]

theorem stretch_cons (mem : ℕ → α) {i j : ℕ} (h : i < j) : stretch mem i j = mem i :: stretch mem (i + 1) j := by
  obtain ⟨d, rfl⟩ := Nat.exists_eq_add_of_lt h
  have hlong : i + d + 1 - i = d + 1 := by omega
  have hshort : i + d + 1 - (i + 1) = d := by omega
  rw [stretch, stretch, hlong, hshort, List.range'_succ, List.map_cons]

theorem stretch_succ (mem : ℕ → α) {i j : ℕ} (h : i ≤ j) : stretch mem i (j + 1) = stretch mem i j ++ [mem j] := by
  rw [← stretch_append mem h (Nat.le_succ j), stretch_cons mem (Nat.lt_succ_self j), stretch_self]

theorem stretch_congr {mem mem' : ℕ → α} {i j : ℕ} (h : ∀ x, i ≤ x → x < j → mem' x = mem x) :
    stretch mem' i j = stretch mem i j := by
  refine List.map_congr_left fun x hx => ?_
  rw [List.mem_range'_1] at hx
  exact h x hx.1 (by omega)

theorem stretch_update (mem : ℕ → α) {i j x : ℕ} (h : x < i ∨ j ≤ x) (v : α) :
    stretch (Function.update mem x v) i j = stretch mem i j := by
  refine stretch_congr fun y hi hj => Function.update_of_ne ?_ v mem
  omega

theorem take_stretch (mem : ℕ → α) {i j k : ℕ} (h : i + k ≤ j) : (stretch mem i j).take k = stretch mem i (i + k) := by
  rw [← stretch_append mem (Nat.le_add_right i k) h, List.take_left']
  rw [length_stretch]
  omega

theorem drop_stretch (mem : ℕ → α) {i j k : ℕ} (h : i + k ≤ j) : (stretch mem i j).drop k = stretch mem (i + k) j := by
  rw [← stretch_append mem (Nat.le_add_right i k) h, List.drop_left']
  rw [length_stretch]
  omega

structure Flat (mem : ℕ → α) (count read write bound : ℕ) (content : List α) : Prop where
  order : read ≤ write
  room : write ≤ bound
  bound : bound ≤ count
  content : stretch mem read write = content

/-- The content begins before the stop and goes on at the beginning of the ring. -/
structure Wrapped (mem : ℕ → α) (count read stop write bound : ℕ) (front back : List α) : Prop where
  order : read ≤ stop
  inside : stop ≤ count
  room : write ≤ bound
  bound : bound ≤ read
  front : stretch mem read stop = front
  back : stretch mem 0 write = back

section Flat

variable {mem : ℕ → α} {count read write bound : ℕ} {content : List α}

theorem Flat.fill (h : Flat mem count read write bound content) {x : ℕ} (hx : x < read ∨ write ≤ x) (v : α) :
    Flat (Function.update mem x v) count read write bound content :=
  ⟨h.order, h.room, h.bound, (stretch_update mem hx v).trans h.content⟩

theorem Flat.commit (h : Flat mem count read write bound content) {write' : ℕ} (hle : write ≤ write') (hroom : write' ≤ bound) :
    Flat mem count read write' bound (content ++ stretch mem write write') :=
  ⟨h.order.trans hle, hroom, h.bound, by rw [← stretch_append mem h.order hle, h.content]⟩

theorem Flat.release (h : Flat mem count read write bound content) {k : ℕ} (hk : k ≤ content.length) :
    Flat mem count (read + k) write bound (content.drop k) := by
  rw [← h.content, length_stretch] at hk
  have horder := h.order
  have hle : read + k ≤ write := by omega
  exact ⟨hle, h.room, h.bound, by rw [← h.content, drop_stretch mem hle]⟩

theorem Flat.rebound (h : Flat mem count read write bound content) {bound' : ℕ} (hroom : write ≤ bound')
    (hbound : bound' ≤ count) : Flat mem count read write bound' content :=
  ⟨h.order, hroom, hbound, h.content⟩

theorem Flat.wrap (h : Flat mem count read write bound content) {bound' : ℕ} (hbound : bound' ≤ read) :
    Wrapped mem count read write 0 bound' content [] :=
  ⟨h.order, h.room.trans h.bound, Nat.zero_le _, hbound, h.content, stretch_self mem 0⟩

end Flat

section Wrapped

variable {mem : ℕ → α} {count read stop write bound : ℕ} {front back : List α}

theorem Wrapped.fill (h : Wrapped mem count read stop write bound front back) {x : ℕ} (hx : write ≤ x) (hlt : x < bound)
    (v : α) : Wrapped (Function.update mem x v) count read stop write bound front back := by
  have hbound := h.bound
  exact ⟨h.order, h.inside, h.room, h.bound, (stretch_update mem (.inl (by omega)) v).trans h.front,
    (stretch_update mem (.inr hx) v).trans h.back⟩

theorem Wrapped.commit (h : Wrapped mem count read stop write bound front back) {write' : ℕ} (hle : write ≤ write')
    (hroom : write' ≤ bound) : Wrapped mem count read stop write' bound front (back ++ stretch mem write write') :=
  ⟨h.order, h.inside, hroom, h.bound, h.front, by rw [← stretch_append mem (Nat.zero_le write) hle, h.back]⟩

theorem Wrapped.release (h : Wrapped mem count read stop write bound front back) {k : ℕ} (hk : k ≤ front.length) :
    Wrapped mem count (read + k) stop write bound (front.drop k) back := by
  rw [← h.front, length_stretch] at hk
  have horder := h.order
  have hle : read + k ≤ stop := by omega
  exact ⟨hle, h.inside, h.room, h.bound.trans (Nat.le_add_right read k), by rw [← h.front, drop_stretch mem hle], h.back⟩

theorem Wrapped.rebound (h : Wrapped mem count read stop write bound front back) {bound' : ℕ} (hroom : write ≤ bound')
    (hbound : bound' ≤ read) : Wrapped mem count read stop write bound' front back :=
  ⟨h.order, h.inside, hroom, hbound, h.front, h.back⟩

theorem Wrapped.unwrap (h : Wrapped mem count read stop write bound front back) :
    Flat mem count 0 write bound back :=
  ⟨Nat.zero_le _, h.room, h.bound.trans (h.order.trans h.inside), h.back⟩

end Wrapped

end BipBuffer
