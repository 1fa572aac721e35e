import Mathlib.Logic.Function.Basic
import Mathlib.Data.List.Basic
import Mathlib.Tactic

/-!
# A queue in a circular buffer

The entries lie between `head` and `tail` and wrap around at the end of the buffer. A queue that
fills up grows at once by `chunk` entries, up to `cap`, so that `head = tail` says that it is empty.
At `cap` it can be full; then the tail is the end of the buffer and nothing more may be added.
-/
namespace OmniCompiler.Memory

structure RingQueue (α : Type*) where
  buf : ℕ → α
  size : ℕ
  head : ℕ
  tail : ℕ

namespace RingQueue

variable {α : Type*} (q : RingQueue α)

/-- The place after `i`. -/
def next (i : ℕ) : ℕ := if i + 1 = q.size then 0 else i + 1

/-- `x` at the tail. -/
def append (x : α) : RingQueue α :=
  { q with buf := Function.update q.buf q.tail x, tail := q.next q.tail }

/-- A buffer of `size` entries; the entries from the head to the end of the old one come first. -/
def grow (size : ℕ) : RingQueue α where
  buf := fun i => if i < q.size - q.head then q.buf (q.head + i) else q.buf (i - (q.size - q.head))
  size := size
  head := 0
  tail := q.size

def push (chunk cap : ℕ) (x : α) : RingQueue α :=
  let q' := q.append x
  if q'.tail = q'.head then q'.grow (min (q'.size + chunk) cap) else q'

def pop : RingQueue α := { q with head := q.next q.head }

/-! ## Contents -/

def length : ℕ := if q.head ≤ q.tail then q.tail - q.head else q.tail + q.size - q.head

/-- The place of the `i`-th entry from the head. -/
def place (i : ℕ) : ℕ := if q.head + i < q.size then q.head + i else q.head + i - q.size

def get (i : ℕ) : α := q.buf (q.place i)

def contents : List α := (List.range q.length).map q.get

@[simp] theorem length_contents : q.contents.length = q.length := by
  simp [contents]

/-- The head and the tail lie in the buffer; the tail is at its end only in a full queue. -/
structure Fits (cap : ℕ) : Prop where
  head_lt : q.head < q.size
  size_le : q.size ≤ cap
  tail : q.tail < q.size ∨ q.tail = q.size ∧ q.head = 0 ∧ q.size = cap

variable {q} {chunk cap : ℕ} (h : q.Fits cap)

include h

theorem Fits.tail_lt (hroom : q.contents.length < cap) : q.tail < q.size := by
  obtain hlt | ⟨htail, hhead, hsize⟩ := h.tail
  · exact hlt
  · rw [length_contents, length, htail, hhead] at hroom
    split_ifs at hroom with h0
    · omega
    · omega

theorem Fits.contents_eq_nil_iff : q.contents = [] ↔ q.head = q.tail := by
  have hhead := h.head_lt
  rw [← List.length_eq_zero_iff, length_contents, length]
  split_ifs
  · omega
  · obtain hlt | ⟨htail, hzero, -⟩ := h.tail
    · omega
    · omega

theorem Fits.place_ne_tail {i : ℕ} (hi : i < q.length) :
    q.place i ≠ q.tail := by
  have hhead := h.head_lt
  rw [length] at hi
  rw [place]
  split_ifs at hi
  · split_ifs
    · omega
    · omega
  · split_ifs
    · omega
    · omega

theorem Fits.place_length (htail : q.tail < q.size) : q.place q.length = q.tail := by
  have hhead := h.head_lt
  rw [place, length]
  split_ifs <;> omega

omit h in
theorem contents_concat {q' : RingQueue α} {x : α} (hlength : q'.length = q.length + 1)
    (hget : ∀ i < q.length, q'.get i = q.get i) (hlast : q'.get q.length = x) :
    q'.contents = q.contents ++ [x] := by
  rw [contents, hlength, List.range_succ, List.map_append, contents, List.map_singleton, hlast]
  congr 1
  apply List.map_congr_left
  intro i hi
  exact hget i (List.mem_range.mp hi)

omit h in
theorem get_append (x : α) (i : ℕ) :
    (q.append x).get i = Function.update q.buf q.tail x (q.place i) := rfl

omit h in
theorem get_grow {size i : ℕ} (hhead : q.head < q.size) (hsize : q.size ≤ size) (hi : i < q.size) :
    (q.grow size).get i = q.get i := by
  have hplace : (q.grow size).place i = i := by
    rw [place]
    show (if 0 + i < size then 0 + i else 0 + i - size) = i
    rw [Nat.zero_add, if_pos (by omega)]
  rw [get, hplace, get, place]
  show (if i < q.size - q.head then q.buf (q.head + i) else q.buf (i - (q.size - q.head))) = _
  split_ifs
  · rfl
  · omega
  · omega
  · congr 1
    omega

theorem Fits.contents_append (htail : q.tail < q.size) (hfull : q.next q.tail ≠ q.head) (x : α) :
    (q.append x).contents = q.contents ++ [x] := by
  have hhead := h.head_lt
  apply contents_concat
  · rw [next] at hfull
    simp only [length, append, next]
    split_ifs at hfull ⊢ <;> omega
  · intro i hi
    rw [get_append]
    exact Function.update_of_ne (h.place_ne_tail hi) _ _
  · rw [get_append, h.place_length htail]
    exact Function.update_self _ _ _

/-- When the tail has come round to the head, the new buffer has the entries in their order. -/
theorem Fits.contents_grow (htail : q.tail < q.size) (hfull : q.next q.tail = q.head) (x : α)
    {size : ℕ} (hsize : q.size ≤ size) :
    ((q.append x).grow size).contents = q.contents ++ [x] := by
  have hhead := h.head_lt
  have hlength : q.length + 1 = q.size := by
    rw [next] at hfull
    rw [length]
    split_ifs at hfull
    · split_ifs
      · omega
      · omega
    · split_ifs
      · omega
      · omega
  apply contents_concat
  · rw [hlength]
    simp [length, append, grow]
  · intro i hi
    have hi' : i < (q.append x).size := Nat.lt_of_lt_of_le (Nat.lt_succ_of_lt hi) hlength.le
    rw [get_grow (q := q.append x) hhead hsize hi', get_append]
    exact Function.update_of_ne (h.place_ne_tail hi) _ _
  · have hlast : q.length < (q.append x).size := hlength.le
    rw [get_grow (q := q.append x) hhead hsize hlast, get_append, h.place_length htail]
    exact Function.update_self _ _ _

theorem Fits.contents_push (hroom : q.contents.length < cap) (x : α) :
    (q.push chunk cap x).contents = q.contents ++ [x] := by
  have htail := h.tail_lt hroom
  have hsize := h.size_le
  rw [push]
  split_ifs with hfull
  · apply h.contents_grow htail hfull
    show q.size ≤ min (q.size + chunk) cap
    omega
  · exact h.contents_append htail hfull x

theorem Fits.push (hchunk : 0 < chunk) (hroom : q.contents.length < cap) (x : α) :
    (q.push chunk cap x).Fits cap := by
  have htail := h.tail_lt hroom
  have hhead := h.head_lt
  have hsize := h.size_le
  rw [RingQueue.push]
  split_ifs with hfull
  · constructor
    · show 0 < min (q.size + chunk) cap
      omega
    · exact min_le_right _ _
    · show q.size < min (q.size + chunk) cap ∨
        q.size = min (q.size + chunk) cap ∧ 0 = 0 ∧ min (q.size + chunk) cap = cap
      omega
  · refine ⟨hhead, hsize, Or.inl ?_⟩
    show q.next q.tail < q.size
    rw [next]
    split_ifs
    · omega
    · omega

theorem Fits.contents_pop (htail : q.tail < q.size) (hne : q.head ≠ q.tail) :
    q.contents = q.buf q.head :: q.pop.contents := by
  have hhead := h.head_lt
  have hlength : q.length = q.pop.length + 1 := by
    simp only [length, pop, next]
    split_ifs <;> omega
  have hfirst : q.place 0 = q.head := if_pos hhead
  have hplace : ∀ i < q.pop.length, q.place (1 + i) = q.pop.place i := by
    intro i hi
    simp only [length, pop, next] at hi
    simp only [place, pop, next]
    split_ifs at hi ⊢ <;> omega
  rw [contents, hlength, Nat.add_comm, List.range_add, List.map_append, List.map_map, contents]
  show [q.get 0] ++ _ = _
  rw [get, hfirst, List.singleton_append]
  congr 1
  apply List.map_congr_left
  intro i hi
  rw [List.mem_range] at hi
  rw [Function.comp_apply, get, hplace i hi]
  rfl

theorem Fits.pop (htail : q.tail < q.size) : q.pop.Fits cap := by
  have hhead := h.head_lt
  refine ⟨?_, h.size_le, Or.inl htail⟩
  show q.next q.head < q.size
  rw [next]
  split_ifs
  · omega
  · omega

end RingQueue

end OmniCompiler.Memory
