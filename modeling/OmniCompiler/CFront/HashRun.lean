import OmniCompiler.CFront.EntryMap

/-!
# Runs of a hash table

Each call on a table has the result that it has on the map which the table stores.
-/
namespace OmniCompiler.CFront.HashTable

open OmniCompiler.Memory.Buckets

variable {kt : KeyType} {t : HashTable kt} {m : EntryMap kt}

/-- One call. There is no result where the program aborts, uses a freed entry or overflows. -/
def call (t : HashTable kt) : HashCall kt → Option (HashResult × HashTable kt)
  | .find key => some (.found ((t.findHashEntry key).map HashEntry.ptr), t)
  | .create key p => (t.createHashEntry key p).map fun r => (.created r.1.1 r.1.2, r.2)
  | .put key d p => (t.putStringHashEntry key d p).map fun r => (.entry r.1, r.2)
  | .remove key => (t.removeStringHashEntry key).map fun r => (.value r.1, r.2)
  | .getValue p => (t.getHashValue p).map fun d => (.value d, t)
  | .setValue p d => (t.setHashValue p d).map fun t' => (.done, t')
  | .delete p => (t.deleteHashEntry p).map fun t' => (.done, t')
  | .size => some (.size t.numEntries, t)
  | .clear => some (.done, t.clearHashTable)

def run (t : HashTable kt) : List (HashCall kt) → Option (List HashResult × HashTable kt)
  | [] => some ([], t)
  | c :: cs =>
    (t.call c).bind fun r => (r.2.run cs).map fun rs => (r.1 :: rs.1, rs.2)

structure Stores (t : HashTable kt) (m : EntryMap kt) : Prop where
  shaped : t.Shaped
  room : t.numEntries < t.rebuildSize
  describes : m.Describes t.entries

theorem stores_initHashTable (kt : KeyType) : (initHashTable kt).Stores EntryMap.empty where
  shaped := shaped_initHashTable kt
  room := Nat.succ_pos 11
  describes := EntryMap.describes_empty

theorem Shaped.mem_of_findHashEntry {key : kt.Key} {e : HashEntry kt}
    (h : t.findHashEntry key = some e) : e ∈ t.entries ∧ e.key = key := by
  refine ⟨mem_flatten_iff.mpr ⟨_, List.mem_of_find?_eq_some h⟩, ?_⟩
  have hsame := List.find?_some (p := fun e : HashEntry kt => sameKey kt key e.key) h
  exact ((sameKey_iff _ _).mp hsame).symm

theorem Shaped.findHashEntry_ne_none (h : t.Shaped) {e : HashEntry kt} (he : e ∈ t.entries) :
    t.findHashEntry e.key ≠ none := by
  intro hnone
  have hmem : e ∈ chain t.buckets (t.index e.key) := h.placed.mem_chain he
  exact List.find?_eq_none.mp hnone e hmem ((sameKey_iff _ _).mpr rfl)

namespace Stores

theorem exists_findHashEntry (h : t.Stores m) {key : kt.Key} {p d : ℕ}
    (hm : m key = some (p, d)) :
    ∃ e ∈ t.entries, t.findHashEntry key = some e ∧ e.key = key ∧ e.ptr = p ∧
      e.clientData = d := by
  obtain ⟨e, he, rfl, rfl, rfl⟩ := (h.describes.mem _ _ _).mp hm
  obtain ⟨e', he'⟩ := Option.ne_none_iff_exists'.mp (h.shaped.findHashEntry_ne_none he)
  obtain ⟨hmem, hkey⟩ := Shaped.mem_of_findHashEntry he'
  obtain rfl := h.describes.eq_of_key hmem he hkey
  exact ⟨e', he, he', rfl, rfl, rfl⟩

theorem findHashEntry_eq_none (h : t.Stores m) {key : kt.Key} (hm : m key = none) :
    t.findHashEntry key = none := by
  by_contra hne
  obtain ⟨e, he⟩ := Option.ne_none_iff_exists'.mp hne
  obtain ⟨hmem, hkey⟩ := Shaped.mem_of_findHashEntry he
  exact (h.describes.eq_none_iff key).mp hm e hmem hkey

theorem findHashEntry_map (h : t.Stores m) (key : kt.Key) :
    (t.findHashEntry key).map (fun e => (e.ptr, e.clientData)) = m key := by
  cases hm : m key with
  | none => rw [h.findHashEntry_eq_none hm, Option.map_none]
  | some pd =>
    obtain ⟨e, -, he, -, hp, hd⟩ := h.exists_findHashEntry (p := pd.1) (d := pd.2) hm
    simp [he, hp, hd]

theorem exists_deref (h : t.Stores m) {key : kt.Key} {p d : ℕ} (hm : m key = some (p, d)) :
    ∃ e ∈ t.entries, t.deref p = some e ∧ e.key = key ∧ e.ptr = p ∧ e.clientData = d := by
  obtain ⟨e, he, rfl, rfl, rfl⟩ := (h.describes.mem _ _ _).mp hm
  have hne : t.deref e.ptr ≠ none := fun hnone => by
    simpa using List.find?_eq_none.mp hnone e he
  obtain ⟨e', he'⟩ := Option.ne_none_iff_exists'.mp hne
  have hptr : e'.ptr = e.ptr := by simpa using List.find?_some he'
  obtain rfl := h.describes.eq_of_ptr (List.mem_of_find?_eq_some he') he hptr
  exact ⟨e', he, he', rfl, rfl, rfl⟩

/-! ## Creating -/

theorem createHashEntry_old (h : t.Stores m) {key : kt.Key} {q d : ℕ} (hm : m key = some (q, d))
    (p : ℕ) : t.createHashEntry key p = some ((q, false), t) := by
  obtain ⟨e, -, he, -, rfl, -⟩ := h.exists_findHashEntry hm
  simp [createHashEntry, he]

theorem shaped_put (h : t.Shaped) (key : kt.Key) (p : ℕ) :
    Shaped { t with
      buckets := put t.buckets (t.index key) ⟨p, t.index key, 0, key⟩
      numEntries := t.numEntries + 1 } where
  length := (length_put _ _).trans h.length
  level := h.level
  mask := h.mask
  rebuildSize := h.rebuildSize
  placed := h.placed.put _
  bucketPtr := h.bucketPtr.put ⟨p, t.index key, 0, key⟩
  count := by
    rw [entries, (perm_put (h.index_lt key) _).length_eq, List.length_cons, ← entries, ← h.count]

theorem createHashEntry_new (h : t.Stores m) {key : kt.Key} {p : ℕ} (hm : m key = none)
    (hp : m.Room p) :
    ∃ t', t.createHashEntry key p = some ((p, true), t') ∧
      t'.Stores (Function.update m key (some (p, 0))) := by
  have hfind := h.findHashEntry_eq_none hm
  have hshaped := shaped_put h.shaped key p
  have hdesc := (h.describes.cons hm hp.unused (t.index key) 0).perm
    (perm_put (h.shaped.index_lt key) _).symm
  have hsize : t.numEntries + 1 < 805306368 := by
    have := hp.small
    rwa [h.describes.size_eq, ← h.shaped.count] at this
  have hroom := h.room
  simp only [createHashEntry, hfind]
  split_ifs with hfull
  · -- the entry that fills the table up to `rebuildSize`
    obtain ⟨t', ht', hshaped', hrebuild, index, hperm⟩ := hshaped.exists_rebuildTable (by
      change t.rebuildSize < 805306368
      omega)
    refine ⟨t', by rw [ht', Option.map_some], hshaped', ?_, ?_⟩
    · have hlen := hperm.length_eq
      rw [List.length_map, ← hshaped'.count, ← hshaped.count] at hlen
      rw [hlen, hrebuild]
      change t.numEntries + 1 < t.rebuildSize * 4
      omega
    · exact (hdesc.map_bucketPtr index).perm hperm.symm
  · exact ⟨_, rfl, hshaped, Nat.lt_of_not_le hfull, hdesc⟩

/-! ## Values -/

theorem chain_map {α : Type*} (f : α → α) (b : List (List α)) (i : ℕ) :
    chain (b.map (List.map f)) i = (chain b i).map f := by
  rcases Nat.lt_or_ge i b.length with hi | hi <;> simp [chain, hi]

theorem shaped_map (h : t.Shaped) {f : HashEntry kt → HashEntry kt}
    (hkey : ∀ e, (f e).key = e.key) (hbucket : ∀ e, (f e).bucketPtr = e.bucketPtr) :
    Shaped { t with buckets := t.buckets.map (List.map f) } where
  length := (List.length_map _).trans h.length
  level := h.level
  mask := h.mask
  rebuildSize := h.rebuildSize
  placed := by
    intro i x hx
    obtain ⟨e, he, rfl⟩ := List.mem_map.mp (chain_map f t.buckets i ▸ hx)
    exact (congrArg t.index (hkey e)).trans (h.placed i e he)
  bucketPtr := by
    intro i x hx
    obtain ⟨e, he, rfl⟩ := List.mem_map.mp (chain_map f t.buckets i ▸ hx)
    exact (hbucket e).trans (h.bucketPtr i e he)
  count := by
    rw [entries, ← List.map_flatten, List.length_map]
    exact h.count

theorem setHashValue (h : t.Stores m) {key : kt.Key} {p d' : ℕ} (hm : m key = some (p, d'))
    (d : ℕ) :
    ∃ t', t.setHashValue p d = some t' ∧
      t'.Stores (Function.update m key (some (p, d))) := by
  obtain ⟨e, he, hderef, rfl, rfl, -⟩ := h.exists_deref hm
  let set : HashEntry kt → HashEntry kt :=
    fun e' => if e'.ptr = e.ptr then { e' with clientData := d } else e'
  have hset : t.setHashValue e.ptr d =
      some { t with buckets := t.buckets.map (List.map set) } := by
    rw [HashTable.setHashValue, hderef, Option.map_some]
  refine ⟨_, hset, ?_, h.room, ?_⟩
  · refine shaped_map h.shaped (fun e' => ?_) fun e' => ?_
    · simp only [set]
      split_ifs <;> rfl
    · simp only [set]
      split_ifs <;> rfl
  · rw [entries, ← List.map_flatten]
    exact h.describes.set he d

/-! ## Deleting -/

/-- The chain that `bucketPtr` names has the entry, so that the program does not abort. -/
theorem deleteHashEntry (h : t.Stores m) {key : kt.Key} {p d : ℕ} (hm : m key = some (p, d)) :
    ∃ t', t.deleteHashEntry p = some t' ∧ t'.Stores (Function.update m key none) := by
  obtain ⟨e, he, hderef, rfl, rfl, -⟩ := h.exists_deref hm
  have hmem : e ∈ chain t.buckets e.bucketPtr := h.shaped.bucketPtr.mem_chain he
  obtain ⟨l, hl⟩ := exists_unlink (p := fun e' => decide (e'.ptr = e.ptr)) hmem (by simp)
  have hlt : e.bucketPtr < t.buckets.length := by
    have hi : t.index e.key = e.bucketPtr := h.shaped.placed _ _ hmem
    exact hi ▸ h.shaped.index_lt e.key
  obtain ⟨x, hx, hxmem, hperm⟩ := perm_set_unlink hlt hl
  obtain rfl : x = e :=
    h.describes.eq_of_ptr (mem_flatten_iff.mpr ⟨_, hxmem⟩) he (by simpa using hx)
  obtain ⟨-, -, -, hsub⟩ := exists_perm_of_unlink hl
  have hlen : t.numEntries = (t.buckets.set x.bucketPtr l).flatten.length + 1 :=
    h.shaped.count.trans hperm.length_eq
  have hroom := h.room
  refine ⟨_, by rw [HashTable.deleteHashEntry, hderef, Option.bind_some, hl, Option.map_some],
    ⟨?_, ?_, ?_, ?_, ?_, ?_, ?_⟩, ?_, ?_⟩
  · exact List.length_set.trans h.shaped.length
  · exact h.shaped.level
  · exact h.shaped.mask
  · exact h.shaped.rebuildSize
  · exact h.shaped.placed.set hsub.subset
  · exact h.shaped.bucketPtr.set hsub.subset
  · change t.numEntries - 1 = (t.buckets.set x.bucketPtr l).flatten.length
    omega
  · change t.numEntries - 1 < t.rebuildSize
    omega
  · exact (h.describes.perm hperm).erase

/-! ## Runs -/

theorem call (h : t.Stores m) {c : HashCall kt} {r : HashResult} {m' : EntryMap kt}
    (hs : m.Step c r m') : ∃ t', t.call c = some (r, t') ∧ t'.Stores m' := by
  cases hs with
  | find key =>
    refine ⟨t, ?_, h⟩
    rw [← h.findHashEntry_map key, Option.map_map]
    rfl
  | createOld p hm => exact ⟨t, by simp [HashTable.call, h.createHashEntry_old hm p], h⟩
  | createNew hm hp =>
    obtain ⟨t', ht', h'⟩ := h.createHashEntry_new hm hp
    exact ⟨t', by simp [HashTable.call, ht'], h'⟩
  | putOld d p hm =>
    obtain ⟨t', ht', h'⟩ := h.setHashValue hm d
    exact ⟨t', by simp [HashTable.call, putStringHashEntry, h.createHashEntry_old hm p, ht'], h'⟩
  | putNew d hm hp =>
    obtain ⟨t', ht', h'⟩ := h.createHashEntry_new hm hp
    obtain ⟨t'', ht'', h''⟩ := h'.setHashValue (Function.update_self _ _ _) d
    rw [Function.update_idem] at h''
    exact ⟨t'', by simp [HashTable.call, putStringHashEntry, ht', ht''], h''⟩
  | removeOld hm =>
    obtain ⟨e, -, hfind, -, rfl, rfl⟩ := h.exists_findHashEntry hm
    obtain ⟨t', ht', h'⟩ := h.deleteHashEntry hm
    exact ⟨t', by simp [HashTable.call, removeStringHashEntry, hfind, ht'], h'⟩
  | removeNone hm =>
    exact ⟨t, by simp [HashTable.call, removeStringHashEntry, h.findHashEntry_eq_none hm], h⟩
  | getValue hm =>
    obtain ⟨e, -, hderef, -, -, rfl⟩ := h.exists_deref hm
    exact ⟨t, by simp [HashTable.call, getHashValue, hderef], h⟩
  | setValue d hm =>
    obtain ⟨t', ht', h'⟩ := h.setHashValue hm d
    exact ⟨t', by simp [HashTable.call, ht'], h'⟩
  | delete hm =>
    obtain ⟨t', ht', h'⟩ := h.deleteHashEntry hm
    exact ⟨t', by simp [HashTable.call, ht'], h'⟩
  | size => exact ⟨t, by simp [HashTable.call, h.describes.size_eq, h.shaped.count], h⟩
  | clear => exact ⟨_, rfl, stores_initHashTable kt⟩

theorem run (h : t.Stores m) {cs : List (HashCall kt)} {rs : List HashResult} {m' : EntryMap kt}
    (hs : EntryMap.Run m cs rs m') : ∃ t', t.run cs = some (rs, t') ∧ t'.Stores m' := by
  induction hs generalizing t with
  | nil m => exact ⟨t, rfl, h⟩
  | cons hstep _ ih =>
    obtain ⟨t', ht', h'⟩ := h.call hstep
    obtain ⟨t'', ht'', h''⟩ := ih h'
    exact ⟨t'', by simp [HashTable.run, ht', ht''], h''⟩

end Stores

/-- On every run the calls have the results that they have on the map: an entry that has been
created is found where it was put, through all rebuilds, until it is deleted. At the end there are
as many entries as keys, and less than three for each chain. -/
theorem initHashTable_run {cs : List (HashCall kt)} {rs : List HashResult}
    (h : EntryMap.Run EntryMap.empty cs rs m) :
    ∃ t, (initHashTable kt).run cs = some (rs, t) ∧
      (∀ key, (t.findHashEntry key).map (fun e => (e.ptr, e.clientData)) = m key) ∧
      t.numEntries = m.size ∧ t.numEntries < 3 * t.numBuckets := by
  obtain ⟨t, ht, hst⟩ := (stores_initHashTable kt).run h
  refine ⟨t, ht, hst.findHashEntry_map, ?_, ?_⟩
  · rw [hst.describes.size_eq, hst.shaped.count]
  · exact hst.shaped.rebuildSize ▸ hst.room

/-- An entry is created, given a value and removed. -/
theorem initHashTable_run_remove : ∃ t, (initHashTable .oneWordKeys).run
      [.create (.word 5) 100, .setValue 100 7, .remove (.word 5), .find (.word 5)] =
        some ([.created 100 true, .done, .value 7, .found none], t) ∧
      (∀ key, (t.findHashEntry key).map (fun e => (e.ptr, e.clientData)) =
        EntryMap.empty key) ∧
      t.numEntries = (EntryMap.empty : EntryMap .oneWordKeys).size ∧
      t.numEntries < 3 * t.numBuckets := by
  refine initHashTable_run ?_
  have hroom : (EntryMap.empty : EntryMap .oneWordKeys).Room 100 :=
    ⟨by simp [EntryMap.empty], by simp [EntryMap.size, EntryMap.empty]⟩
  refine .cons (.createNew rfl hroom) ?_
  refine .cons (.setValue 7 (Function.update_self _ _ _)) ?_
  refine .cons (.removeOld (Function.update_self _ _ _)) ?_
  have hempty : Function.update (EntryMap.empty : EntryMap .oneWordKeys) (.word 5) none =
      EntryMap.empty := Function.update_eq_self _ _
  rw [Function.update_idem, Function.update_idem, hempty]
  exact .cons (.find _) (.nil _)

end OmniCompiler.CFront.HashTable
