import OmniCompiler.CFront.HashTable
import Mathlib.Data.Set.Card

/-!
# What a hash table stores

A map from keys to entries, each at a place of its own. A table does on every run what this map
does, also while it grows.
-/
namespace OmniCompiler.CFront

open OmniCompiler.Memory.Buckets

/-- For a key the place of its entry and the value there. -/
abbrev EntryMap (kt : KeyType) := kt.Key → Option (ℕ × ℕ)

/-- The calls. A place `p` beside a key is where an entry goes that has to be allocated. -/
inductive HashCall (kt : KeyType)
  | find (key : kt.Key)
  | create (key : kt.Key) (p : ℕ)
  | put (key : kt.Key) (d p : ℕ)
  | remove (key : kt.Key)
  | getValue (p : ℕ)
  | setValue (p d : ℕ)
  | delete (p : ℕ)
  | size
  | clear

inductive HashResult
  | found (p : Option ℕ)
  | created (p : ℕ) (isNew : Bool)
  | entry (p : ℕ)
  | value (d : ℕ)
  | size (n : ℕ)
  | done
  deriving DecidableEq

namespace EntryMap

variable {kt : KeyType}

def empty : EntryMap kt := fun _ => none

noncomputable def size (m : EntryMap kt) : ℕ := {key | m key ≠ none}.ncard

/-- The allocator may return `p`, and the table may get another entry. -/
structure Room (m : EntryMap kt) (p : ℕ) : Prop where
  unused : ∀ key q d, m key = some (q, d) → q ≠ p
  small : m.size + 1 < 805306368

/-- A call that its user may make, with its result and the map after it. -/
inductive Step (m : EntryMap kt) : HashCall kt → HashResult → EntryMap kt → Prop
  | find (key : kt.Key) : Step m (.find key) (.found ((m key).map Prod.fst)) m
  | createOld {key : kt.Key} {q d : ℕ} (p : ℕ) (h : m key = some (q, d)) :
    Step m (.create key p) (.created q false) m
  | createNew {key : kt.Key} {p : ℕ} (h : m key = none) (hp : m.Room p) :
    Step m (.create key p) (.created p true) (Function.update m key (some (p, 0)))
  | putOld {key : kt.Key} {q d' : ℕ} (d p : ℕ) (h : m key = some (q, d')) :
    Step m (.put key d p) (.entry q) (Function.update m key (some (q, d)))
  | putNew {key : kt.Key} {p : ℕ} (d : ℕ) (h : m key = none) (hp : m.Room p) :
    Step m (.put key d p) (.entry p) (Function.update m key (some (p, d)))
  | removeOld {key : kt.Key} {p d : ℕ} (h : m key = some (p, d)) :
    Step m (.remove key) (.value d) (Function.update m key none)
  | removeNone {key : kt.Key} (h : m key = none) : Step m (.remove key) (.value 0) m
  | getValue {key : kt.Key} {p d : ℕ} (h : m key = some (p, d)) :
    Step m (.getValue p) (.value d) m
  | setValue {key : kt.Key} {p d' : ℕ} (d : ℕ) (h : m key = some (p, d')) :
    Step m (.setValue p d) .done (Function.update m key (some (p, d)))
  | delete {key : kt.Key} {p d : ℕ} (h : m key = some (p, d)) :
    Step m (.delete p) .done (Function.update m key none)
  | size : Step m .size (.size m.size) m
  | clear : Step m .clear .done empty

/-- The runs from `m` by the calls in order. -/
inductive Run : EntryMap kt → List (HashCall kt) → List HashResult → EntryMap kt → Prop
  | nil (m : EntryMap kt) : Run m [] [] m
  | cons {m m' m'' : EntryMap kt} {c : HashCall kt} {r : HashResult} {cs : List (HashCall kt)}
      {rs : List HashResult} (h : Step m c r m') (hs : Run m' cs rs m'') :
    Run m (c :: cs) (r :: rs) m''

/-- The entries of `l` are those of the map. -/
structure Describes (m : EntryMap kt) (l : List (HashEntry kt)) : Prop where
  keys : (l.map HashEntry.key).Nodup
  ptrs : (l.map HashEntry.ptr).Nodup
  mem : ∀ key p d, m key = some (p, d) ↔ ∃ e ∈ l, e.key = key ∧ e.ptr = p ∧ e.clientData = d

variable {m : EntryMap kt} {l l' : List (HashEntry kt)}

theorem describes_empty : (empty : EntryMap kt).Describes [] where
  keys := List.nodup_nil
  ptrs := List.nodup_nil
  mem := by simp [empty]

theorem Describes.perm (h : m.Describes l) (hl : l.Perm l') : m.Describes l' where
  keys := (hl.map _).nodup_iff.mp h.keys
  ptrs := (hl.map _).nodup_iff.mp h.ptrs
  mem key p d := by simp only [h.mem, hl.mem_iff]

theorem Describes.map_bucketPtr (h : m.Describes l) (index : HashEntry kt → ℕ) :
    m.Describes (l.map fun e => { e with bucketPtr := index e }) where
  keys := by simpa [Function.comp_def] using h.keys
  ptrs := by simpa [Function.comp_def] using h.ptrs
  mem key p d := by simp [h.mem]

theorem Describes.eq_of_ptr (h : m.Describes l) {e e' : HashEntry kt} (he : e ∈ l) (he' : e' ∈ l)
    (hptr : e.ptr = e'.ptr) : e = e' :=
  List.inj_on_of_nodup_map h.ptrs he he' hptr

theorem Describes.eq_of_key (h : m.Describes l) {e e' : HashEntry kt} (he : e ∈ l) (he' : e' ∈ l)
    (hkey : e.key = e'.key) : e = e' :=
  List.inj_on_of_nodup_map h.keys he he' hkey

theorem Describes.apply_key (h : m.Describes l) {e : HashEntry kt} (he : e ∈ l) :
    m e.key = some (e.ptr, e.clientData) :=
  (h.mem _ _ _).mpr ⟨e, he, rfl, rfl, rfl⟩

theorem Describes.eq_none_iff (h : m.Describes l) (key : kt.Key) :
    m key = none ↔ ∀ e ∈ l, e.key ≠ key := by
  constructor
  · rintro hnone e he rfl
    simp [h.apply_key he] at hnone
  · intro hl
    by_contra hne
    obtain ⟨⟨p, d⟩, hpd⟩ := Option.ne_none_iff_exists'.mp hne
    obtain ⟨e, he, hkey, -⟩ := (h.mem _ _ _).mp hpd
    exact hl e he hkey

theorem Describes.size_eq (h : m.Describes l) : m.size = l.length := by
  have hset : {key | m key ≠ none} = ((l.map HashEntry.key).toFinset : Set kt.Key) := by
    ext key
    simp [h.eq_none_iff key]
  rw [size, hset, Set.ncard_coe_finset, List.toFinset_card_of_nodup h.keys, List.length_map]

theorem Describes.cons (h : m.Describes l) {key : kt.Key} {p : ℕ} (hkey : m key = none)
    (hp : ∀ key q d, m key = some (q, d) → q ≠ p) (i d : ℕ) :
    Describes (Function.update m key (some (p, d))) (⟨p, i, d, key⟩ :: l) where
  keys := by
    refine List.nodup_cons.mpr ⟨fun hmem => ?_, h.keys⟩
    obtain ⟨e, he, hek⟩ := List.mem_map.mp hmem
    exact (h.eq_none_iff key).mp hkey e he hek
  ptrs := by
    refine List.nodup_cons.mpr ⟨fun hmem => ?_, h.ptrs⟩
    obtain ⟨e, he, hep⟩ := List.mem_map.mp hmem
    exact hp e.key e.ptr e.clientData (h.apply_key he) hep
  mem key' q d' := by
    by_cases hk : key' = key
    · subst hk
      have hnone := (h.eq_none_iff key').mp hkey
      constructor
      · intro heq
        obtain ⟨rfl, rfl⟩ : p = q ∧ d = d' := by simpa using heq
        exact ⟨_, List.mem_cons_self, rfl, rfl, rfl⟩
      · rintro ⟨e, he, hek, rfl, rfl⟩
        obtain rfl | he := List.mem_cons.mp he
        · simp
        · exact absurd hek (hnone e he)
    · rw [Function.update_of_ne hk, h.mem]
      simp [Ne.symm hk]

theorem Describes.erase {e : HashEntry kt} (h : m.Describes (e :: l)) :
    Describes (Function.update m e.key none) l where
  keys := (List.nodup_cons.mp h.keys).2
  ptrs := (List.nodup_cons.mp h.ptrs).2
  mem key p d := by
    have hkey : ∀ e' ∈ l, e'.key ≠ e.key := fun e' he' heq =>
      (List.nodup_cons.mp h.keys).1 (heq ▸ List.mem_map_of_mem he')
    by_cases hk : key = e.key
    · subst hk
      constructor
      · simp
      · rintro ⟨e', he', hek, -⟩
        exact absurd hek (hkey e' he')
    · rw [Function.update_of_ne hk, h.mem]
      simp [Ne.symm hk]

theorem Describes.set (h : m.Describes l) {e : HashEntry kt} (he : e ∈ l) (value : ℕ) :
    Describes (Function.update m e.key (some (e.ptr, value)))
      (l.map fun e' => if e'.ptr = e.ptr then { e' with clientData := value } else e') where
  keys := by
    rw [List.map_map]
    refine (List.map_congr_left fun e' _ => ?_) ▸ h.keys
    simp only [Function.comp_apply]
    split_ifs <;> rfl
  ptrs := by
    rw [List.map_map]
    refine (List.map_congr_left fun e' _ => ?_) ▸ h.ptrs
    simp only [Function.comp_apply]
    split_ifs <;> rfl
  mem key p d := by
    by_cases hk : key = e.key
    · subst hk
      constructor
      · intro heq
        obtain ⟨rfl, rfl⟩ : e.ptr = p ∧ value = d := by simpa using heq
        exact ⟨_, List.mem_map_of_mem he, by simp⟩
      · rintro ⟨e', he', hek, rfl, rfl⟩
        obtain ⟨e₀, he₀, rfl⟩ := List.mem_map.mp he'
        have heq : e₀ = e := h.eq_of_key he₀ he (by split_ifs at hek <;> exact hek)
        subst heq
        simp
    · rw [Function.update_of_ne hk, h.mem]
      constructor
      · rintro ⟨e', he', rfl, rfl, rfl⟩
        have hne : e'.ptr ≠ e.ptr := fun heq => hk (h.eq_of_ptr he' he heq ▸ rfl)
        exact ⟨_, List.mem_map_of_mem he', by simp [hne]⟩
      · rintro ⟨e', he', hek, rfl, rfl⟩
        obtain ⟨e₀, he₀, rfl⟩ := List.mem_map.mp he'
        by_cases hptr : e₀.ptr = e.ptr
        · obtain rfl := h.eq_of_ptr he₀ he hptr
          simp only [if_true] at hek
          exact absurd hek.symm hk
        · simp only [hptr, if_false] at hek ⊢
          exact ⟨e₀, he₀, hek, rfl, rfl⟩

end EntryMap

end OmniCompiler.CFront
