import OmniCompiler.Arithmetic.MachineInt
import OmniCompiler.Memory.Blocks

/-!
# Datatypes of a message-passing library

A datatype lists the displacements of its bytes in order. A transfer moves the bytes that the
datatype of the origin lists to the places that the datatype of the target lists. Counts are of
type `int`, so a count that does not fit is converted.
-/
namespace OmniCompiler.Memory

open MachineInt

variable {β : Type}

/-- The number of elements that a call is given as `int`; a negative one is an error. -/
def mpiCount (n : ℕ) : Option ℕ := if toInt n < 0 then none else some (toInt n).toNat

structure Datatype where
  typeMap : List ℕ
  extent : ℕ

def Datatype.byte : Datatype := ⟨[0], 1⟩

/-- `MPI_Type_create_hvector`: `count` blocks of `blocklength` elements, the blocks `stride` bytes
apart. Of arguments that do not fit in an `int` nothing is said. -/
def Datatype.hvector (count blocklength stride : ℕ) (old : Datatype) : Option Datatype := do
  let count ← cnat count
  let blocklength ← cnat blocklength
  let stride ← cnat stride
  some {
    typeMap := (List.range count).flatMap fun i => (List.range blocklength).flatMap fun j =>
      old.typeMap.map (i * stride + j * old.extent + ·)
    extent := (count - 1) * stride + blocklength * old.extent }

/-- A transfer of `n` elements of type `MPI_BYTE`. -/
def moveBytes (n : ℕ) (src mem : ℤ → β) (d s : ℤ) : Option (ℤ → β) :=
  (mpiCount n).map fun count => transfer count src mem d s

/-- A transfer of one element of each datatype; they must have the same number of bytes. -/
def moveTyped (dstType srcType : Datatype) (src mem : ℤ → β) (d s : ℤ) : Option (ℤ → β) :=
  if dstType.typeMap.length = srcType.typeMap.length then
    some (transfers 1 src mem (blocksAt d s dstType.typeMap srcType.typeMap))
  else none

theorem mpiCount_of_lt {n : ℕ} (h : n < 2 ^ 31) : mpiCount n = some n := by
  have hint : toInt n = n := toInt_of_inInt ⟨by omega, by exact_mod_cast h⟩
  rw [mpiCount, hint, if_neg (by omega), Int.toNat_natCast]

theorem lt_of_mpiCount {n c : ℕ} (h : ¬n < 2 ^ 31) (hc : mpiCount n = some c) : c < n := by
  rw [mpiCount] at hc
  split_ifs at hc with hneg
  rw [← Option.some.inj hc]
  rw [toInt] at hneg ⊢
  omega

theorem Datatype.hvector_eq {count blocklength stride : ℕ} (hcount : count < 2 ^ 31)
    (hblock : blocklength < 2 ^ 31) (hstride : stride < 2 ^ 31) (old : Datatype) :
    ∃ t, hvector count blocklength stride old = some t ∧
      t.typeMap = (List.range count).flatMap fun i => (List.range blocklength).flatMap fun j =>
        old.typeMap.map (i * stride + j * old.extent + ·) := by
  rw [hvector, cnat_of_lt hcount, cnat_of_lt hblock, cnat_of_lt hstride]
  exact ⟨_, rfl, rfl⟩

theorem span_one (os : List ℕ) : span 1 os = os := by
  induction os with
  | nil => rfl
  | cons o os ih =>
    rw [span_cons, ih]
    rfl

theorem moveTyped_blocks {n : ℕ} {dstType srcType : Datatype} {ss ts : List ℕ}
    (hd : dstType.typeMap = span n ss) (hs : srcType.typeMap = span n ts)
    (hlen : ss.length = ts.length) (hsorted : (span n ss).Pairwise (· < ·))
    (src mem : ℤ → β) (d s : ℤ) :
    ∃ mem', moveTyped dstType srcType src mem d s = some mem' ∧
      IsAssignment n (blocksAt d s ss ts) src mem mem' := by
  have hbytes : (span n ss).length = (span n ts).length := by
    rw [length_span, length_span, hlen]
  have hdisjoint : DisjointBlocks 1 (blocksAt d s (span n ss) (span n ts)) :=
    disjointBlocks_blocksAt d s _ (hsorted.imp fun h => h)
  refine ⟨transfers 1 src mem (blocksAt d s (span n ss) (span n ts)), ?_, ?_⟩
  · rw [moveTyped, hd, hs, if_pos hbytes]
  · apply (isAssignment_blocksAt_congr hlen hbytes _ _).mpr
      (isAssignment_transfers hdisjoint src mem)
    · rw [span_one]
    · rw [span_one]

theorem exists_unmoved {n c : ℕ} {os : List ℕ} (hne : os ≠ []) (hc : c < n) :
    ∃ a ∈ span n os, ∀ o ∈ os, ¬(o ≤ a ∧ a < o + c) := by
  obtain ⟨top, htop⟩ := Option.ne_none_iff_exists'.mp (List.max?_eq_none_iff.not.mpr hne)
  obtain ⟨hmem, hle⟩ := List.max?_eq_some_iff.mp htop
  refine ⟨top + (n - 1), mem_span.mpr ⟨top, hmem, by omega, by omega⟩, ?_⟩
  intro o ho
  have := hle o ho
  omega

end OmniCompiler.Memory
