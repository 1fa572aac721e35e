import OmniCompiler.Arithmetic.MixedRadix

/-!
# Lock objects (`xmp_lock_unlock.c`)

A lock object is named by image coordinates and an offset in elements. `_XMP_unlock` multiplies the
offset by the size of an object before it passes it on, `_XMP_lock` does not, and both addresses are
computed from it in elements.
-/
namespace OmniCompiler.Xmp

open MixedRadix

structure WorldProcess where
  size : ℕ
  rank : ℕ
  rank_lt : rank < size
  size_lt : size < 2 ^ 31

/-- A coarray of lock objects: its shape, the codimensions but the last one, and where it lies on
each node. -/
structure LockCoarray (world : WorldProcess) where
  addr : ℕ → ℕ
  coarrayElmts : List ℕ
  imageElmts : List ℕ
  /-- `_check_coarray_image` -/
  image_dvd : imageElmts.prod ∣ world.size

/-- A lock object, as it is passed to `_xmp_gasnet_do_lock` and `_xmp_gasnet_do_unlock`: the node
that makes the call and the address. -/
structure LockObject where
  rank : ℕ
  address : ℕ
  deriving DecidableEq

/-- `sizeof(xmp_lock_t)`. -/
def sizeofLock : ℕ := 40

/-- Conversion to `unsigned int`. -/
def toUInt (x : ℤ) : ℕ := (x % 2 ^ 32).toNat

namespace LockCoarray

variable {world : WorldProcess} (c : LockCoarray world)

def distance (i : ℕ) : ℤ := ((c.imageElmts.take i).prod : ℕ)

/-- `_xmp_gasnet_lock`, on its own node or by a request. -/
def gasnetLock (offset targetRank : ℕ) : LockObject :=
  ⟨targetRank, c.addr targetRank + offset * sizeofLock⟩

/-- `_xmp_gasnet_unlock`, on its own node or by a request. -/
def gasnetUnlock (offset targetRank : ℕ) : LockObject :=
  ⟨targetRank, c.addr targetRank + offset * sizeofLock⟩

def lock (offset rank : ℕ) : LockObject := c.gasnetLock offset rank

def lock0 (offset : ℕ) : LockObject := c.lock offset world.rank

def lock1 (offset e0 : ℕ) : LockObject := c.lock offset (toUInt (e0 - 1))

def lock2 (offset e0 e1 : ℕ) : LockObject :=
  c.lock offset (toUInt (e0 - 1 + c.distance 1 * (e1 - 1)))

def lock3 (offset e0 e1 e2 : ℕ) : LockObject :=
  c.lock offset (toUInt (e0 - 1 + c.distance 1 * (e1 - 1) + c.distance 2 * (e2 - 1)))

def lock4 (offset e0 e1 e2 e3 : ℕ) : LockObject :=
  c.lock offset (toUInt (e0 - 1 + c.distance 1 * (e1 - 1) + c.distance 2 * (e2 - 1) +
    c.distance 3 * (e3 - 1)))

def lock5 (offset e0 e1 e2 e3 e4 : ℕ) : LockObject :=
  c.lock offset (toUInt (e0 - 1 + c.distance 1 * (e1 - 1) + c.distance 2 * (e2 - 1) +
    c.distance 3 * (e3 - 1) + c.distance 4 * (e4 - 1)))

def lock6 (offset e0 e1 e2 e3 e4 e5 : ℕ) : LockObject :=
  c.lock offset (toUInt (e0 - 1 + c.distance 1 * (e1 - 1) + c.distance 2 * (e2 - 1) +
    c.distance 3 * (e3 - 1) + c.distance 4 * (e4 - 1) + c.distance 5 * (e5 - 1)))

def lock7 (offset e0 e1 e2 e3 e4 e5 e6 : ℕ) : LockObject :=
  c.lock offset (toUInt (e0 - 1 + c.distance 1 * (e1 - 1) + c.distance 2 * (e2 - 1) +
    c.distance 3 * (e3 - 1) + c.distance 4 * (e4 - 1) + c.distance 5 * (e5 - 1) +
    c.distance 6 * (e6 - 1)))

def unlock (offset rank : ℕ) : LockObject := c.gasnetUnlock (toUInt (offset * sizeofLock)) rank

def unlock0 (offset : ℕ) : LockObject := c.unlock offset world.rank

def unlock1 (offset e0 : ℕ) : LockObject := c.unlock offset (toUInt (e0 - 1))

def unlock2 (offset e0 e1 : ℕ) : LockObject :=
  c.unlock offset (toUInt (e0 - 1 + c.distance 1 * (e1 - 1)))

def unlock3 (offset e0 e1 e2 : ℕ) : LockObject :=
  c.unlock offset (toUInt (e0 - 1 + c.distance 1 * (e1 - 1) + c.distance 2 * (e2 - 1)))

def unlock4 (offset e0 e1 e2 e3 : ℕ) : LockObject :=
  c.unlock offset (toUInt (e0 - 1 + c.distance 1 * (e1 - 1) + c.distance 2 * (e2 - 1) +
    c.distance 3 * (e3 - 1)))

def unlock5 (offset e0 e1 e2 e3 e4 : ℕ) : LockObject :=
  c.unlock offset (toUInt (e0 - 1 + c.distance 1 * (e1 - 1) + c.distance 2 * (e2 - 1) +
    c.distance 3 * (e3 - 1) + c.distance 4 * (e4 - 1)))

def unlock6 (offset e0 e1 e2 e3 e4 e5 : ℕ) : LockObject :=
  c.unlock offset (toUInt (e0 - 1 + c.distance 1 * (e1 - 1) + c.distance 2 * (e2 - 1) +
    c.distance 3 * (e3 - 1) + c.distance 4 * (e4 - 1) + c.distance 5 * (e5 - 1)))

def unlock7 (offset e0 e1 e2 e3 e4 e5 e6 : ℕ) : LockObject :=
  c.unlock offset (toUInt (e0 - 1 + c.distance 1 * (e1 - 1) + c.distance 2 * (e2 - 1) +
    c.distance 3 * (e3 - 1) + c.distance 4 * (e4 - 1) + c.distance 5 * (e5 - 1) +
    c.distance 6 * (e6 - 1)))

/-- The function for as many coordinates as there are. -/
def lockAt (offset : ℕ) : List ℕ → Option LockObject
  | [] => some (c.lock0 offset)
  | [e0] => some (c.lock1 offset e0)
  | [e0, e1] => some (c.lock2 offset e0 e1)
  | [e0, e1, e2] => some (c.lock3 offset e0 e1 e2)
  | [e0, e1, e2, e3] => some (c.lock4 offset e0 e1 e2 e3)
  | [e0, e1, e2, e3, e4] => some (c.lock5 offset e0 e1 e2 e3 e4)
  | [e0, e1, e2, e3, e4, e5] => some (c.lock6 offset e0 e1 e2 e3 e4 e5)
  | [e0, e1, e2, e3, e4, e5, e6] => some (c.lock7 offset e0 e1 e2 e3 e4 e5 e6)
  | _ => none

def unlockAt (offset : ℕ) : List ℕ → Option LockObject
  | [] => some (c.unlock0 offset)
  | [e0] => some (c.unlock1 offset e0)
  | [e0, e1] => some (c.unlock2 offset e0 e1)
  | [e0, e1, e2] => some (c.unlock3 offset e0 e1 e2)
  | [e0, e1, e2, e3] => some (c.unlock4 offset e0 e1 e2 e3)
  | [e0, e1, e2, e3, e4] => some (c.unlock5 offset e0 e1 e2 e3 e4)
  | [e0, e1, e2, e3, e4, e5] => some (c.unlock6 offset e0 e1 e2 e3 e4 e5)
  | [e0, e1, e2, e3, e4, e5, e6] => some (c.unlock7 offset e0 e1 e2 e3 e4 e5 e6)
  | _ => none

/-- `number_of_elements` of `_xmp_gasnet_lock_initialize`, the product of `_XMP_lock_initialize_1`
to `_XMP_lock_initialize_7`. -/
def numberOfElements : ℕ := toUInt (c.coarrayElmts.prod : ℕ)

/-- One of the objects that the nodes initialize; the counter of the loop is an `int`. -/
def Initialized (object : LockObject) : Prop :=
  ∃ rank < world.size, ∃ i < min c.numberOfElements (2 ^ 31),
    object = ⟨rank, c.addr rank + i * sizeofLock⟩

/-- Extents of the codimensions. -/
def extents : List ℕ := c.imageElmts ++ [world.size / c.imageElmts.prod]

/-- No coordinates, for the own image, or those of an image. -/
def Names (coords : List ℕ) : Prop :=
  coords = [] ∨ coords.length = c.extents.length ∧
    ∀ i < coords.length, 1 ≤ coords.getD i 0 ∧ coords.getD i 0 ≤ c.extents.getD i 1

/-- An offset inside the coarray. -/
def Inside (offset : ℕ) : Prop := offset < c.coarrayElmts.prod ∧ offset < 2 ^ 32

/-- Lock and unlock name the same object, which has been initialized, and no other coordinates or
offset name it. -/
def NamesObject (offset : ℕ) (coords : List ℕ) : Prop :=
  ∃ object, c.lockAt offset coords = some object ∧ c.unlockAt offset coords = some object ∧
    c.Initialized object ∧ ∀ offset' coords', c.Inside offset' → c.Names coords' →
      coords'.length = coords.length → c.lockAt offset' coords' = some object →
        offset' = offset ∧ coords' = coords

/-! ## Ranks -/

/-- The sum of which the seven functions with coordinates write out one each. -/
def imageRank (coords : List ℕ) : ℤ :=
  ∑ i ∈ Finset.range coords.length, c.distance i * ((coords.getD i 0 : ℤ) - 1)

def rankOf : List ℕ → ℕ
  | [] => world.rank
  | e :: coords => toUInt (c.imageRank (e :: coords))

variable {c}

theorem distance_zero : c.distance 0 = 1 := rfl

theorem lockAt_eq {coords : List ℕ} (hlength : coords.length ≤ 7) (offset : ℕ) :
    c.lockAt offset coords = some (c.lock offset (c.rankOf coords)) ∧
      c.unlockAt offset coords = some (c.unlock offset (c.rankOf coords)) := by
  match coords with
  | [] => exact ⟨rfl, rfl⟩
  | [_] | [_, _] | [_, _, _] | [_, _, _, _] | [_, _, _, _, _] | [_, _, _, _, _, _]
  | [_, _, _, _, _, _, _] =>
    simp [lockAt, unlockAt, lock1, lock2, lock3, lock4, lock5, lock6, lock7, unlock1, unlock2,
      unlock3, unlock4, unlock5, unlock6, unlock7, rankOf, imageRank, Finset.sum_range_succ,
      distance_zero]
  | _ :: _ :: _ :: _ :: _ :: _ :: _ :: _ :: _ =>
    simp only [List.length_cons] at hlength
    omega

section Ranks

variable {coords coords' : List ℕ}

theorem length_extents : c.extents.length = c.imageElmts.length + 1 := by
  simp [extents]

theorem prod_extents : c.extents.prod = world.size := by
  rw [extents, List.prod_append, List.prod_singleton, Nat.mul_div_cancel' c.image_dvd]

/-- The distance of a codimension is the place value of its coordinate. -/
theorem distance_eq {i : ℕ} (hi : i < c.extents.length) :
    c.distance i = (placeValue (fun i => c.extents.getD i 1) i : ℕ) := by
  have htake : (c.extents.take i).length = i := by
    rw [List.length_take]
    omega
  have hplace := placeValue_getD (c.extents.take i) 1
  rw [htake] at hplace
  have hsame : placeValue (fun i => c.extents.getD i 1) i =
      placeValue (fun j => (c.extents.take i).getD j 1) i := by
    apply placeValue_congr
    intro j hj
    simp only [List.getD_eq_getElem?_getD, List.getElem?_take_of_lt hj]
  rw [hsame, hplace, distance, extents, List.take_append_of_le_length]
  rw [length_extents] at hi
  omega

/-- The rank of an image is the number whose digits are its coordinates less one. -/
theorem imageRank_eq (h : c.Names coords) (hne : coords ≠ []) : c.imageRank coords =
    (number (fun i => c.extents.getD i 1) (fun i => coords.getD i 0 - 1) c.extents.length : ℕ) := by
  obtain ⟨hlength, hrange⟩ := h.resolve_left hne
  rw [imageRank, number, hlength, Nat.cast_sum]
  apply Finset.sum_congr rfl
  intro i hi
  have hlt := Finset.mem_range.mp hi
  have hone := (hrange i (hlength ▸ hlt)).1
  rw [distance_eq hlt, Nat.cast_mul, Nat.cast_sub hone, mul_comm, Nat.cast_one]

theorem digit_lt (h : c.Names coords) (hne : coords ≠ []) :
    ∀ i < c.extents.length, coords.getD i 0 - 1 < c.extents.getD i 1 := by
  obtain ⟨hlength, hrange⟩ := h.resolve_left hne
  intro i hi
  obtain ⟨hone, hle⟩ := hrange i (hlength ▸ hi)
  omega

theorem rankOf_eq (h : c.Names coords) (hne : coords ≠ []) : c.rankOf coords =
    number (fun i => c.extents.getD i 1) (fun i => coords.getD i 0 - 1) c.extents.length := by
  have hlt := number_lt (digit_lt h hne)
  rw [placeValue_getD, prod_extents] at hlt
  have hsize := world.size_lt
  cases coords with
  | nil => exact absurd rfl hne
  | cons e coords =>
    rw [rankOf, imageRank_eq h hne, toUInt]
    omega

theorem rankOf_lt (h : c.Names coords) : c.rankOf coords < world.size := by
  by_cases hne : coords = []
  · subst hne
    exact world.rank_lt
  · rw [rankOf_eq h hne, ← prod_extents (c := c), ← placeValue_getD c.extents 1]
    exact number_lt (digit_lt h hne)

theorem rankOf_inj (h : c.Names coords) (h' : c.Names coords')
    (hlength : coords'.length = coords.length) (hrank : c.rankOf coords' = c.rankOf coords) :
    coords' = coords := by
  by_cases hne : coords = []
  · subst hne
    exact List.eq_nil_of_length_eq_zero hlength
  · have hne' : coords' ≠ [] := by
      intro hnil
      rw [hnil] at hlength
      exact hne (List.eq_nil_of_length_eq_zero hlength.symm)
    obtain ⟨hlen, hrange⟩ := h.resolve_left hne
    obtain ⟨hlen', hrange'⟩ := h'.resolve_left hne'
    rw [rankOf_eq h hne, rankOf_eq h' hne'] at hrank
    have hdigits := number_inj (digit_lt h' hne') (digit_lt h hne) hrank
    apply List.ext_getElem hlength
    intro i hi' hi
    have hdigit := hdigits i (hlen ▸ hi)
    have hone := (hrange i hi).1
    have hone' := (hrange' i hi').1
    simp only [List.getD_eq_getElem _ _ hi, List.getD_eq_getElem _ _ hi'] at hdigit hone hone'
    omega

end Ranks

/-! ## Objects -/

theorem lockAt_inj {offset offset' : ℕ} {coords coords' : List ℕ} {object : LockObject}
    (hmax : c.extents.length ≤ 7) (h : c.Names coords) (h' : c.Names coords')
    (hlength : coords'.length = coords.length) (hobject : c.lockAt offset coords = some object)
    (hobject' : c.lockAt offset' coords' = some object) : offset' = offset ∧ coords' = coords := by
  have hseven : coords.length ≤ 7 := by
    obtain rfl | ⟨hlen, -⟩ := h
    · exact Nat.zero_le 7
    · rwa [hlen]
  rw [(lockAt_eq hseven offset).1] at hobject
  rw [(lockAt_eq (hlength ▸ hseven) offset').1] at hobject'
  have hsame := Option.some.inj (hobject'.trans hobject.symm)
  obtain ⟨hrank, haddress⟩ := LockObject.mk.inj hsame
  have hcoords := rankOf_inj h h' hlength hrank
  subst hcoords
  refine ⟨?_, rfl⟩
  simp only [sizeofLock] at haddress
  omega

/-- The offsets of lock and unlock are the same only for the first object. -/
theorem lock_eq_unlock_iff {offset : ℕ} (hoffset : offset < 2 ^ 32) (rank : ℕ) :
    c.unlock offset rank = c.lock offset rank ↔ offset = 0 := by
  simp only [unlock, lock, gasnetUnlock, gasnetLock, LockObject.mk.injEq, sizeofLock, toUInt,
    true_and, Nat.cast_ofNat]
  omega

theorem initialized_iff (offset : ℕ) {coords : List ℕ} (h : c.Names coords) :
    c.Initialized (c.lock offset (c.rankOf coords)) ↔ offset < min c.numberOfElements (2 ^ 31) := by
  constructor
  · intro ⟨rank, _, i, hi, hobject⟩
    obtain ⟨hrank, haddress⟩ := LockObject.mk.inj hobject
    subst hrank
    simp only [sizeofLock] at haddress
    omega
  · intro hoffset
    exact ⟨c.rankOf coords, rankOf_lt h, offset, hoffset, rfl⟩

/-- An object is named right if and only if it is the first one of its image, and the number of
objects is not a multiple of `2 ^ 32`. -/
theorem namesObject_iff (hmax : c.extents.length ≤ 7) {offset : ℕ} {coords : List ℕ}
    (hoffset : c.Inside offset) (hcoords : c.Names coords) :
    c.NamesObject offset coords ↔ offset = 0 ∧ ¬ 2 ^ 32 ∣ c.coarrayElmts.prod := by
  have hseven : coords.length ≤ 7 := by
    obtain rfl | ⟨hlen, -⟩ := hcoords
    · exact Nat.zero_le 7
    · rwa [hlen]
  obtain ⟨hlock, hunlock⟩ := lockAt_eq (c := c) hseven offset
  have hnumber : 0 < c.numberOfElements ↔ ¬ 2 ^ 32 ∣ c.coarrayElmts.prod := by
    rw [numberOfElements, toUInt]
    omega
  rw [← hnumber]
  constructor
  · intro ⟨object, hobject, hobject', hinitialized, _⟩
    rw [hlock] at hobject
    rw [hunlock] at hobject'
    have hsame := Option.some.inj (hobject'.trans hobject.symm)
    have hzero := (lock_eq_unlock_iff hoffset.2 _).mp hsame
    rw [← Option.some.inj hobject, initialized_iff offset hcoords, hzero] at hinitialized
    exact ⟨hzero, hinitialized.trans_le (min_le_left _ _)⟩
  · intro ⟨hzero, hpos⟩
    subst hzero
    have hsame := (lock_eq_unlock_iff (c := c) hoffset.2 (c.rankOf coords)).mpr rfl
    have hfirst : 0 < min c.numberOfElements (2 ^ 31) := lt_min hpos (by decide)
    refine ⟨_, hlock, by rw [hunlock, hsame], (initialized_iff 0 hcoords).mpr hfirst, ?_⟩
    intro offset' coords' _ hcoords' hlength hlock'
    exact lockAt_inj hmax hcoords hcoords' hlength hlock hlock'

end LockCoarray

def fourImages : WorldProcess := ⟨4, 1, by decide, by decide⟩

/-- A coarray of three locks, declared with the codimensions `[2][*]`. -/
def threeLocks : LockCoarray fourImages := ⟨fun _ => 4096, [3], [2], by decide⟩

theorem namesObject_iff_first : threeLocks.NamesObject 0 [2, 1] :=
  (@LockCoarray.namesObject_iff fourImages threeLocks (by decide) 0 [2, 1] ⟨by decide, by decide⟩
    (Or.inr ⟨rfl, by decide⟩)).mpr ⟨rfl, by decide⟩

/-- The second lock of image `[2][1]`: the unlock names the object 40 places behind. -/
theorem not_namesObject_second : threeLocks.Inside 1 ∧ threeLocks.Names [2, 1] ∧
    threeLocks.lockAt 1 [2, 1] = some ⟨1, 4136⟩ ∧ threeLocks.unlockAt 1 [2, 1] = some ⟨1, 5696⟩ ∧
    ¬ threeLocks.NamesObject 1 [2, 1] := by
  refine ⟨⟨by decide, by decide⟩, Or.inr ⟨rfl, by decide⟩, rfl, rfl, ?_⟩
  intro ⟨object, hlock, hunlock, _⟩
  have hsame := hlock.trans hunlock.symm
  revert hsame
  decide

end OmniCompiler.Xmp
