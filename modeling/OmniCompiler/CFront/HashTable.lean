import OmniCompiler.Memory.Buckets

/-!
# Hash tables (`ccol-hash.c`)

A table holds its entries in chains. Once it has three entries for each chain, `rebuildTable`
spreads them over four times as many. An entry keeps its place in memory, which its users hold, and
the chain that it is in, by which `deleteHashEntry` finds what points to it.
-/
namespace OmniCompiler.CFront

open OmniCompiler.Memory.Buckets

def CString := { s : List (BitVec 8) // 0 ∉ s }

/-- The keys are strings, words or arrays of `n` integers. -/
inductive KeyType
  | stringKeys
  | oneWordKeys
  | arrayKeys (n : ℕ)
  deriving DecidableEq

def KeyType.Key : KeyType → Type
  | stringKeys => CString
  | oneWordKeys => BitVec 64
  | arrayKeys n => Vector (BitVec 32) n

/-- A word as a key, as the macros for words cast it. -/
def KeyType.Key.word (w : BitVec 64) : KeyType.oneWordKeys.Key := w

/-- The loop over `p1` and `p2`, which ends at the first difference or at a zero. -/
def sameString : List (BitVec 8) → List (BitVec 8) → Bool
  | [], [] => true
  | c₁ :: p₁, c₂ :: p₂ => if c₁ ≠ c₂ then false else sameString p₁ p₂
  | _, _ => false

/-- The loop over `iPtr1` and `iPtr2` for `count` words. -/
def sameWords : ℕ → List (BitVec 32) → List (BitVec 32) → Bool
  | 0, _, _ => true
  | count + 1, w₁ :: p₁, w₂ :: p₂ => if w₁ ≠ w₂ then false else sameWords count p₁ p₂
  | _ + 1, _, _ => false

def sameWord (w₁ w₂ : BitVec 64) : Bool := w₁ == w₂

def sameKey : (kt : KeyType) → kt.Key → kt.Key → Bool
  | .stringKeys, key₁, key₂ => sameString key₁.val key₂.val
  | .oneWordKeys, key₁, key₂ => sameWord key₁ key₂
  | .arrayKeys n, key₁, key₂ => sameWords n (Vector.toList key₁) (Vector.toList key₂)

def hashString (string : List (BitVec 8)) : BitVec 32 :=
  string.foldl (fun result c => result + ((result <<< 3) + c.signExtend 32)) 0

def randomIndex (downShift mask : ℕ) (i : BitVec 64) : ℕ :=
  ((i * 1103515245).sshiftRight downShift &&& BitVec.ofNat 64 mask).toNat

def hashIndex (downShift mask : ℕ) : (kt : KeyType) → kt.Key → ℕ
  | .stringKeys, key => (hashString key.val &&& BitVec.ofNat 32 mask).toNat
  | .oneWordKeys, key => randomIndex downShift mask key
  | .arrayKeys _, key =>
    randomIndex downShift mask
      (((Vector.toList key).foldl (fun index w => index + w) 0).signExtend 64)

/-- `ptr` is the place of the entry; `nextPtr` is the order of the chain. -/
structure HashEntry (kt : KeyType) where
  ptr : ℕ
  bucketPtr : ℕ
  clientData : ℕ
  key : kt.Key

structure HashTable (kt : KeyType) where
  buckets : List (List (HashEntry kt))
  numBuckets : ℕ
  numEntries : ℕ
  rebuildSize : ℕ
  downShift : ℕ
  mask : ℕ

namespace HashTable

variable {kt : KeyType}

def initHashTable (kt : KeyType) : HashTable kt where
  buckets := List.replicate 4 []
  numBuckets := 4
  numEntries := 0
  rebuildSize := 4 * 3
  downShift := 28
  mask := 3

def entries (t : HashTable kt) : List (HashEntry kt) := t.buckets.flatten

def index (t : HashTable kt) (key : kt.Key) : ℕ := hashIndex t.downShift t.mask kt key

/-- The entry at `p`; nothing where `p` has been freed. -/
def deref (t : HashTable kt) (p : ℕ) : Option (HashEntry kt) :=
  t.entries.find? fun e => decide (e.ptr = p)

def findHashEntry (t : HashTable kt) (key : kt.Key) : Option (HashEntry kt) :=
  (chain t.buckets (t.index key)).find? fun e => sameKey kt key e.key

/-- Four times the chains. The result is undefined where an `int` of the table would overflow. -/
def rebuildTable (t : HashTable kt) : Option (HashTable kt) :=
  if 2147483647 < t.rebuildSize * 4 then none
  else
    let downShift := t.downShift - 2
    let mask := t.mask * 4 + 3
    let index := fun e : HashEntry kt => hashIndex downShift mask kt e.key
    some { buckets := spread index (fun e => { e with bucketPtr := index e }) (t.numBuckets * 4)
             t.entries
           numBuckets := t.numBuckets * 4
           numEntries := t.numEntries
           rebuildSize := t.rebuildSize * 4
           downShift := downShift
           mask := mask }

/-- `p` is where a new entry is allocated. The result is the place of the entry with `newPtr`. -/
def createHashEntry (t : HashTable kt) (key : kt.Key) (p : ℕ) :
    Option ((ℕ × Bool) × HashTable kt) :=
  match t.findHashEntry key with
  | some e => some ((e.ptr, false), t)
  | none =>
    let t' := { t with
      buckets := put t.buckets (t.index key) ⟨p, t.index key, 0, key⟩
      numEntries := t.numEntries + 1 }
    if t'.rebuildSize ≤ t'.numEntries then t'.rebuildTable.map fun t'' => ((p, true), t'')
    else some ((p, true), t')

def getHashValue (t : HashTable kt) (p : ℕ) : Option ℕ := (t.deref p).map HashEntry.clientData

def setHashValue (t : HashTable kt) (p value : ℕ) : Option (HashTable kt) :=
  (t.deref p).map fun _ => { t with
    buckets := t.buckets.map (List.map fun e =>
      if e.ptr = p then { e with clientData := value } else e) }

def deleteHashEntry (t : HashTable kt) (p : ℕ) : Option (HashTable kt) :=
  (t.deref p).bind fun e =>
    (unlink (fun e' => decide (e'.ptr = p)) (chain t.buckets e.bucketPtr)).map fun l =>
      { t with buckets := t.buckets.set e.bucketPtr l, numEntries := t.numEntries - 1 }

def putStringHashEntry (t : HashTable kt) (key : kt.Key) (d p : ℕ) : Option (ℕ × HashTable kt) :=
  (t.createHashEntry key p).bind fun r => (r.2.setHashValue r.1.1 d).map fun t' => (r.1.1, t')

/-- `NULL`, which is 0, where there is no such entry. -/
def removeStringHashEntry (t : HashTable kt) (key : kt.Key) : Option (ℕ × HashTable kt) :=
  match t.findHashEntry key with
  | none => some (0, t)
  | some e => (t.deleteHashEntry e.ptr).map fun t' => (e.clientData, t')

def clearHashTable (_t : HashTable kt) : HashTable kt := initHashTable kt

end HashTable

/-! ## Keys -/

theorem sameString_iff {p₁ p₂ : List (BitVec 8)} : sameString p₁ p₂ = true ↔ p₁ = p₂ := by
  induction p₁ generalizing p₂ with
  | nil => cases p₂ <;> simp [sameString]
  | cons c p₁ ih => cases p₂ <;> simp [sameString, ih]

theorem sameWords_iff {p₁ p₂ : List (BitVec 32)} {count : ℕ} (h₁ : p₁.length = count)
    (h₂ : p₂.length = count) : sameWords count p₁ p₂ = true ↔ p₁ = p₂ := by
  induction count generalizing p₁ p₂ with
  | zero => simp [sameWords, List.length_eq_zero_iff.mp h₁, List.length_eq_zero_iff.mp h₂]
  | succ count ih =>
    obtain ⟨w₁, p₁, rfl⟩ := List.exists_cons_of_length_eq_add_one h₁
    obtain ⟨w₂, p₂, rfl⟩ := List.exists_cons_of_length_eq_add_one h₂
    simp [sameWords, ih (Nat.succ.inj h₁) (Nat.succ.inj h₂)]

theorem sameKey_iff {kt : KeyType} (key₁ key₂ : kt.Key) :
    sameKey kt key₁ key₂ = true ↔ key₁ = key₂ := by
  cases kt with
  | stringKeys => exact sameString_iff.trans Subtype.ext_iff.symm
  | oneWordKeys => exact beq_iff_eq
  | arrayKeys n =>
    refine (sameWords_iff (Vector.length_toList) (Vector.length_toList)).trans ?_
    exact ⟨fun h => Vector.toList_inj.mp h, fun h => congrArg _ h⟩

instance (kt : KeyType) : DecidableEq kt.Key := fun key₁ key₂ =>
  decidable_of_iff _ (sameKey_iff key₁ key₂)

theorem toNat_and_ofNat_le {w : ℕ} (x : BitVec w) (mask : ℕ) :
    (x &&& BitVec.ofNat w mask).toNat ≤ mask := by
  rw [BitVec.toNat_and, BitVec.toNat_ofNat]
  exact Nat.and_le_right.trans (Nat.mod_le _ _)

theorem hashIndex_le (downShift mask : ℕ) {kt : KeyType} (key : kt.Key) :
    hashIndex downShift mask kt key ≤ mask := by
  cases kt <;> exact toNat_and_ofNat_le _ mask

/-! ## The shape of a table -/

namespace HashTable

variable {kt : KeyType} {t : HashTable kt}

/-- The fields agree with each other, and each entry lies in the chain of its key, where its
`bucketPtr` points. -/
structure Shaped (t : HashTable kt) : Prop where
  length : t.buckets.length = t.numBuckets
  level : ∃ k ≤ 13, t.numBuckets = 4 ^ (k + 1) ∧ t.downShift + 2 * k = 28
  mask : t.mask + 1 = t.numBuckets
  rebuildSize : t.rebuildSize = 3 * t.numBuckets
  placed : Placed (fun e => t.index e.key) t.buckets
  bucketPtr : Placed HashEntry.bucketPtr t.buckets
  count : t.numEntries = t.entries.length

theorem shaped_initHashTable (kt : KeyType) : (initHashTable kt).Shaped where
  length := rfl
  level := ⟨0, Nat.zero_le _, rfl, rfl⟩
  mask := rfl
  rebuildSize := rfl
  placed := placed_replicate _ 4
  bucketPtr := placed_replicate _ 4
  count := rfl

theorem Shaped.index_lt (h : t.Shaped) (key : kt.Key) : t.index key < t.buckets.length := by
  have hle := hashIndex_le t.downShift t.mask key
  have hmask := h.mask
  rw [h.length]
  exact Nat.lt_of_le_of_lt hle (by omega)

/-- A table may be rebuilt as long as it has less than `3 * 2 ^ 28` entries. -/
theorem Shaped.exists_rebuildTable (h : t.Shaped) (hsize : t.rebuildSize < 805306368) :
    ∃ t', t.rebuildTable = some t' ∧ t'.Shaped ∧ t'.rebuildSize = t.rebuildSize * 4 ∧
      ∃ index : HashEntry kt → ℕ,
        t'.entries.Perm (t.entries.map fun e => { e with bucketPtr := index e }) := by
  obtain ⟨k, hk, hnum, hshift⟩ := h.level
  have hrebuild := h.rebuildSize
  have hmask := h.mask
  have hk' : k + 1 < 14 := by
    have h4 : 4 ^ (k + 1) < 4 ^ 14 := by norm_num; omega
    exact (Nat.pow_lt_pow_iff_right (by norm_num)).mp h4
  have hle : t.numBuckets ≤ 4 ^ 13 := hnum ▸ Nat.pow_le_pow_right (by norm_num) (by omega)
  norm_num at hle
  have hlt : ∀ e : HashEntry kt,
      hashIndex (t.downShift - 2) (t.mask * 4 + 3) kt e.key < t.numBuckets * 4 := fun e =>
    Nat.lt_of_le_of_lt (hashIndex_le _ _ e.key) (by omega)
  have hperm := perm_spread (f := fun e : HashEntry kt =>
    { e with bucketPtr := hashIndex (t.downShift - 2) (t.mask * 4 + 3) kt e.key })
    (l := t.entries) (fun e _ => hlt e)
  refine ⟨_, if_neg (by omega), ?_, rfl, _, hperm⟩
  refine ⟨length_spread _ _, ⟨k + 1, by omega, ?_, ?_⟩, ?_, ?_, ?_, ?_, ?_⟩
  · exact (congrArg (· * 4) hnum).trans (pow_succ 4 (k + 1)).symm
  · change t.downShift - 2 + 2 * (k + 1) = 28
    omega
  · change t.mask * 4 + 3 + 1 = t.numBuckets * 4
    omega
  · change t.rebuildSize * 4 = 3 * (t.numBuckets * 4)
    omega
  · exact placed_spread (fun _ _ => rfl) _
  · exact placed_spread (fun _ _ => rfl) _
  · exact h.count.trans (hperm.length_eq.trans (List.length_map _)).symm

end HashTable

end OmniCompiler.CFront
