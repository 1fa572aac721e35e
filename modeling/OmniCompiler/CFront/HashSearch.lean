import OmniCompiler.CFront.HashRun

/-!
# Searches through a hash table (`ccol_FirstHashEntry`, `ccol_NextHashEntry`)

A search keeps the place of the entry that it returns next. While it goes on, entries that it has
returned may be deleted and all may be changed.
-/
namespace OmniCompiler.CFront

open OmniCompiler.Memory.Buckets

structure HashSearch where
  nextIndex : ℕ
  nextEntryPtr : Option ℕ

namespace HashTable

variable {kt : KeyType} {t : HashTable kt}

/-- What `nextPtr` of the entry at `p` points to; nothing where `p` has been freed. -/
def nextPtr (t : HashTable kt) (p : ℕ) : Option (Option ℕ) :=
  (t.buckets.find? fun l => l.any fun e => decide (e.ptr = p)).map fun l =>
    (l.dropWhile fun e => decide (e.ptr ≠ p)).tail.head?.map HashEntry.ptr

/-- The first entry of the chains from `nextIndex` on, with the index behind its chain. -/
def firstInChains : List (List (HashEntry kt)) → ℕ → Option (ℕ × ℕ)
  | [], _ => none
  | [] :: buckets, nextIndex => firstInChains buckets (nextIndex + 1)
  | (e :: _) :: _, nextIndex => some (e.ptr, nextIndex + 1)

/-- The place of the entry, or `NULL`. There is no result where a freed entry is used. -/
def nextHashEntry (t : HashTable kt) (s : HashSearch) : Option (Option ℕ × HashSearch) :=
  match s.nextEntryPtr with
  | some p => (t.nextPtr p).map fun next => (some p, { s with nextEntryPtr := next })
  | none =>
    match firstInChains (t.buckets.drop s.nextIndex) s.nextIndex with
    | none => some (none, ⟨max s.nextIndex t.numBuckets, none⟩)
    | some (p, nextIndex) => (t.nextPtr p).map fun next => (some p, ⟨nextIndex, next⟩)

def firstHashEntry (t : HashTable kt) : Option (Option ℕ × HashSearch) := t.nextHashEntry ⟨0, none⟩

end HashTable

/-- A search and its table, with the entries returned and whether it has returned `NULL`. -/
structure HashWalk (kt : KeyType) where
  table : HashTable kt
  search : HashSearch
  returned : List ℕ
  finished : Bool

inductive WalkCall
  | next
  | setValue (p d : ℕ)
  | delete (p : ℕ)

namespace HashWalk

variable {kt : KeyType}

def note (w : HashWalk kt) (r : Option ℕ × HashSearch) : HashWalk kt :=
  match r.1 with
  | none => { w with search := r.2, finished := true }
  | some p => { w with search := r.2, returned := w.returned ++ [p] }

def first (t : HashTable kt) : Option (HashWalk kt) :=
  t.firstHashEntry.map (note ⟨t, ⟨0, none⟩, [], false⟩)

def call (w : HashWalk kt) : WalkCall → Option (HashWalk kt)
  | .next => (w.table.nextHashEntry w.search).map w.note
  | .setValue p d => (w.table.setHashValue p d).map fun t => { w with table := t }
  | .delete p => (w.table.deleteHashEntry p).map fun t => { w with table := t }

/-- The entry is in the table, and where it is deleted the search has returned it. -/
def Allowed (w : HashWalk kt) : WalkCall → Prop
  | .next => True
  | .setValue p _ => (w.table.deref p).isSome
  | .delete p => (w.table.deref p).isSome ∧ p ∈ w.returned

/-- The states that a search through `t` may come to, by allowed calls. -/
inductive Reached (t : HashTable kt) : Option (HashWalk kt) → Prop
  | first : Reached t (first t)
  | call {w : HashWalk kt} (h : Reached t (some w)) {c : WalkCall} (hc : w.Allowed c) :
    Reached t (w.call c)

end HashWalk

namespace HashTable

variable {kt : KeyType} {t : HashTable kt} {m : EntryMap kt} {s : HashSearch}
  {rest : List (HashEntry kt)}

/-- The search has still to return the entries `rest`. -/
structure Ahead (t : HashTable kt) (s : HashSearch) (rest : List (HashEntry kt)) : Prop where
  split : ∃ l₁ l₂, chain t.buckets (s.nextIndex - 1) = l₁ ++ l₂ ∧
    s.nextEntryPtr = l₂.head?.map HashEntry.ptr ∧ (l₂ ≠ [] → 0 < s.nextIndex) ∧
    rest = l₂ ++ (t.buckets.drop s.nextIndex).flatten

theorem ahead_zero (t : HashTable kt) : t.Ahead ⟨0, none⟩ t.entries where
  split := ⟨chain t.buckets 0, [], (List.append_nil _).symm, rfl, fun h => absurd rfl h, rfl⟩

theorem Stores.nextPtr_eq (h : t.Stores m) {i : ℕ} {l₁ l₂ : List (HashEntry kt)} {e : HashEntry kt}
    (hchain : chain t.buckets i = l₁ ++ e :: l₂) :
    t.nextPtr e.ptr = some (l₂.head?.map HashEntry.ptr) := by
  have hmem : e ∈ chain t.buckets i := hchain ▸ List.mem_append_right _ List.mem_cons_self
  have he : e ∈ t.entries := mem_flatten_iff.mpr ⟨i, hmem⟩
  have hsome : (t.buckets.find? fun l => l.any fun e' => decide (e'.ptr = e.ptr)) ≠ none := by
    intro hnone
    obtain ⟨l, hl, hel⟩ := List.mem_flatten.mp he
    exact List.find?_eq_none.mp hnone l hl (List.any_eq_true.mpr ⟨e, hel, by simp⟩)
  obtain ⟨l, hl⟩ := Option.ne_none_iff_exists'.mp hsome
  have hany := List.find?_some hl
  obtain ⟨j, hj, rfl⟩ := List.getElem_of_mem (List.mem_of_find?_eq_some hl)
  obtain ⟨e', he', hptr⟩ := List.any_eq_true.mp hany
  have hj' : chain t.buckets j = t.buckets[j] := by simp [chain, hj]
  have hmem' : e' ∈ chain t.buckets j := hj' ▸ he'
  obtain rfl : e' = e :=
    h.describes.eq_of_ptr (mem_flatten_iff.mpr ⟨j, hmem'⟩) he (by simpa using hptr)
  obtain rfl : j = i :=
    (h.shaped.bucketPtr j e' hmem').symm.trans (h.shaped.bucketPtr i e' hmem)
  -- no entry before `e'` in the chain is at its place
  have hbefore : ∀ x ∈ l₁, decide (x.ptr ≠ e'.ptr) = true := by
    intro x hx
    have hsub : (l₁ ++ e' :: l₂).Sublist t.entries :=
      (hj'.symm.trans hchain) ▸ List.sublist_flatten_of_mem (List.getElem_mem hj)
    have hnodup := (hsub.map HashEntry.ptr).nodup h.describes.ptrs
    rw [List.map_append, List.nodup_append] at hnodup
    exact decide_eq_true (hnodup.2.2 _ (List.mem_map_of_mem hx) _ (by simp))
  rw [nextPtr, hl, Option.map_some, ← hj', hchain, List.dropWhile_append_of_pos hbefore,
    List.dropWhile_cons_of_neg (by simp), List.tail_cons]

/-- The chains from `i` on have no entry, or the first of them lies in chain `j`. -/
theorem firstInChains_spec {b : List (List (HashEntry kt))} (i : ℕ) :
    (firstInChains (b.drop i) i = none ∧ (b.drop i).flatten = []) ∨
      ∃ j e l, i ≤ j ∧ firstInChains (b.drop i) i = some (e.ptr, j + 1) ∧
        chain b j = e :: l ∧ (b.drop i).flatten = e :: l ++ (b.drop (j + 1)).flatten := by
  induction hn : b.length - i generalizing i with
  | zero =>
    rw [List.drop_eq_nil_of_le (by omega)]
    exact .inl ⟨rfl, rfl⟩
  | succ n ih =>
    have hi : i < b.length := by omega
    rw [List.drop_eq_getElem_cons hi]
    cases hb : b[i] with
    | nil =>
      obtain ⟨hnone, hnil⟩ | ⟨j, e, l, hj, hsome, hchain, heq⟩ := ih (i + 1) (by omega)
      · exact .inl ⟨hnone, by simpa using hnil⟩
      · exact .inr ⟨j, e, l, by omega, hsome, hchain, by simpa using heq⟩
    | cons e l => exact .inr ⟨i, e, l, le_rfl, rfl, by simp [chain, hi, hb], by simp⟩

/-- The search returns the first entry of `rest`, or `NULL` where there is none. -/
theorem Stores.nextHashEntry (h : t.Stores m) (ha : t.Ahead s rest) :
    ∃ s', t.nextHashEntry s = some (rest.head?.map HashEntry.ptr, s') ∧ t.Ahead s' rest.tail := by
  obtain ⟨l₁, l₂, hchain, hnext, hpos, rfl⟩ := ha.split
  cases l₂ with
  | cons e l₂ =>
    have hptr := h.nextPtr_eq hchain
    have hnext' : s.nextEntryPtr = some e.ptr := hnext
    refine ⟨⟨s.nextIndex, l₂.head?.map HashEntry.ptr⟩, ?_, ⟨l₁ ++ [e], l₂, ?_, rfl, ?_, rfl⟩⟩
    · simp [HashTable.nextHashEntry, hnext', hptr]
    · simpa using hchain
    · exact fun _ => hpos (List.cons_ne_nil _ _)
  | nil =>
    have hnext' : s.nextEntryPtr = none := hnext
    obtain ⟨hnone, hnil⟩ | ⟨j, e, l, hj, hsome, hchain', heq⟩ :=
      firstInChains_spec (b := t.buckets) s.nextIndex
    · refine ⟨⟨max s.nextIndex t.numBuckets, none⟩, ?_, ⟨_, [], (List.append_nil _).symm, rfl,
        fun hne => absurd rfl hne, ?_⟩⟩
      · simp [HashTable.nextHashEntry, hnext', hnone, hnil]
      · have hdrop : t.buckets.drop (max s.nextIndex t.numBuckets) = [] :=
          List.drop_eq_nil_of_le (h.shaped.length ▸ le_max_right _ _)
        simp [hnil, hdrop]
    · have hptr : t.nextPtr e.ptr = some (l.head?.map HashEntry.ptr) :=
        h.nextPtr_eq (hchain'.trans (List.nil_append _).symm)
      refine ⟨⟨j + 1, l.head?.map HashEntry.ptr⟩, ?_, ⟨[e], l, hchain', rfl,
        fun _ => Nat.succ_pos j, ?_⟩⟩
      · simp [HashTable.nextHashEntry, hnext', hsome, hptr, heq]
      · simp [heq]

theorem Ahead.map (ha : t.Ahead s rest) {f : HashEntry kt → HashEntry kt}
    (hf : ∀ e, (f e).ptr = e.ptr) :
    Ahead { t with buckets := t.buckets.map (List.map f) } s (rest.map f) where
  split := by
    obtain ⟨l₁, l₂, hchain, hnext, hpos, rfl⟩ := ha.split
    refine ⟨l₁.map f, l₂.map f, ?_, ?_, ?_, ?_⟩
    · rw [Stores.chain_map, hchain, List.map_append]
    · rw [hnext, List.head?_map, Option.map_map]
      exact congrArg (l₂.head?.map ·) (funext fun e => (hf e).symm)
    · exact fun hne => hpos fun h => hne (by rw [h, List.map_nil])
    · rw [List.map_append, List.map_flatten, List.map_drop]

theorem Ahead.mem_of_le (ha : t.Ahead s rest) {i : ℕ} (hi : s.nextIndex ≤ i) {e : HashEntry kt}
    (he : e ∈ chain t.buckets i) : e ∈ rest := by
  obtain ⟨l₁, l₂, -, -, -, rfl⟩ := ha.split
  refine List.mem_append_right _ (mem_flatten_iff.mpr ⟨i - s.nextIndex, ?_⟩)
  simpa [chain, List.getElem?_drop, Nat.add_sub_cancel' hi] using he

/-- An entry that has been returned leaves its chain before what the search has still to return. -/
theorem Ahead.set (ha : t.Ahead s rest) {p i : ℕ} {l : List (HashEntry kt)} {e : HashEntry kt}
    (he : e ∈ chain t.buckets i) (hp : e.ptr = p) (hrest : ∀ x ∈ rest, x.ptr ≠ p)
    (hl : unlink (fun e' => decide (e'.ptr = p)) (chain t.buckets i) = some l) (n : ℕ) :
    Ahead { t with buckets := t.buckets.set i l, numEntries := n } s rest where
  split := by
    have hlt : i < s.nextIndex := by
      by_contra hle
      exact hrest e (ha.mem_of_le (Nat.le_of_not_lt hle) he) hp
    obtain ⟨l₁, l₂, hchain, hnext, hpos, rfl⟩ := ha.split
    have hdrop : (t.buckets.set i l).drop s.nextIndex = t.buckets.drop s.nextIndex :=
      List.drop_set_of_lt hlt
    by_cases hi : i = s.nextIndex - 1
    · have hlen : i < t.buckets.length := by
        by_contra hle
        simp [chain, List.getElem?_eq_none (Nat.le_of_not_lt hle)] at he
      subst hi
      rw [hchain] at hl
      obtain ⟨l', rfl⟩ := exists_append_of_unlink hl fun x hx => by
        simpa using hrest x (List.mem_append_left _ hx)
      exact ⟨l', l₂, by simp [chain, hlen], hnext, hpos, by rw [hdrop]⟩
    · refine ⟨l₁, l₂, ?_, hnext, hpos, by rw [hdrop]⟩
      simpa [chain, List.getD_eq_getElem?_getD, List.getElem?_set_ne hi] using hchain

end HashTable

namespace HashWalk

open HashTable

variable {kt : KeyType} {t : HashTable kt} {m : EntryMap kt} {w : HashWalk kt}

/-- What has been returned and what is still ahead are the places of the entries at the start. -/
structure Invariant (w : HashWalk kt) (places : List ℕ) (m : EntryMap kt)
    (rest : List (HashEntry kt)) : Prop where
  stores : w.table.Stores m
  ahead : w.table.Ahead w.search rest
  perm : (w.returned ++ rest.map HashEntry.ptr).Perm places
  finished : w.finished = true → rest = []

theorem Invariant.next {places : List ℕ} {rest : List (HashEntry kt)}
    (h : w.Invariant places m rest) :
    ∃ w', w.call .next = some w' ∧ w'.Invariant places m rest.tail := by
  obtain ⟨s, hs, ha⟩ := h.stores.nextHashEntry h.ahead
  refine ⟨_, by rw [call, hs, Option.map_some], ?_⟩
  cases rest with
  | nil => exact ⟨h.stores, ha, h.perm, fun _ => rfl⟩
  | cons e rest =>
    refine ⟨h.stores, ha, ?_, fun hf => absurd (h.finished hf) (List.cons_ne_nil _ _)⟩
    simpa [note] using h.perm

theorem Invariant.setValue {places : List ℕ} {rest : List (HashEntry kt)}
    (h : w.Invariant places m rest) {p d : ℕ} (hp : (w.table.deref p).isSome) :
    ∃ w' m' rest', w.call (.setValue p d) = some w' ∧ w'.Invariant places m' rest' := by
  obtain ⟨e, he⟩ := Option.isSome_iff_exists.mp hp
  have hptr : e.ptr = p := by simpa using List.find?_some he
  have hm := h.stores.describes.apply_key (List.mem_of_find?_eq_some he)
  rw [hptr] at hm
  obtain ⟨t', ht', hst⟩ := h.stores.setHashValue hm d
  refine ⟨{ w with table := t' }, _, rest.map fun e' =>
    if e'.ptr = p then { e' with clientData := d } else e', by rw [call, ht', Option.map_some],
    hst, ?_, ?_, ?_⟩
  · obtain ⟨_, -, rfl⟩ := Option.map_eq_some_iff.mp ht'
    refine h.ahead.map fun e' => ?_
    split_ifs <;> rfl
  · refine (List.Perm.of_eq ?_).trans h.perm
    rw [List.map_map]
    refine congrArg (w.returned ++ ·) (List.map_congr_left fun e' _ => ?_)
    simp only [Function.comp_apply]
    split_ifs <;> rfl
  · intro hf
    rw [h.finished hf, List.map_nil]

theorem Invariant.delete {places : List ℕ} (hplaces : places.Nodup) {rest : List (HashEntry kt)}
    (h : w.Invariant places m rest) {p : ℕ} (hp : (w.table.deref p).isSome)
    (hret : p ∈ w.returned) :
    ∃ w' m', w.call (.delete p) = some w' ∧ w'.Invariant places m' rest := by
  obtain ⟨e, he⟩ := Option.isSome_iff_exists.mp hp
  have hptr : e.ptr = p := by simpa using List.find?_some he
  have hmem := List.mem_of_find?_eq_some he
  have hm := h.stores.describes.apply_key hmem
  rw [hptr] at hm
  obtain ⟨t', ht', hst⟩ := h.stores.deleteHashEntry hm
  refine ⟨{ w with table := t' }, _, by rw [call, ht', Option.map_some], hst, ?_, h.perm,
    h.finished⟩
  obtain ⟨e', he', hmap⟩ := Option.bind_eq_some_iff.mp ht'
  obtain rfl : e = e' := Option.some.inj (he.symm.trans he')
  obtain ⟨l, hl, rfl⟩ := Option.map_eq_some_iff.mp hmap
  refine h.ahead.set (h.stores.shaped.bucketPtr.mem_chain hmem) hptr ?_ hl _
  rintro x hx rfl
  have hnodup := h.perm.nodup_iff.mpr hplaces
  exact (List.nodup_append.mp hnodup).2.2 _ hret _ (List.mem_map_of_mem hx) rfl

theorem Reached.invariant (ht : t.Stores m) {o : Option (HashWalk kt)} (h : Reached t o) :
    ∃ w m' rest, o = some w ∧ w.Invariant (t.entries.map HashEntry.ptr) m' rest := by
  induction h with
  | first =>
    have h₀ : Invariant ⟨t, ⟨0, none⟩, [], false⟩ (t.entries.map HashEntry.ptr) m t.entries :=
      ⟨ht, ahead_zero t, .refl _, fun hf => by cases hf⟩
    obtain ⟨w, hw, h'⟩ := h₀.next
    exact ⟨w, m, _, hw, h'⟩
  | @call w hw c hc ih =>
    obtain ⟨_, m', rest, heq, h⟩ := ih
    cases heq
    cases c with
    | next =>
      obtain ⟨w', hw', h'⟩ := h.next
      exact ⟨w', m', _, hw', h'⟩
    | setValue p d =>
      obtain ⟨w', m'', rest', hw', h'⟩ := h.setValue hc
      exact ⟨w', m'', rest', hw', h'⟩
    | delete p =>
      obtain ⟨w', m'', hw', h'⟩ := h.delete ht.describes.ptrs hc.1 hc.2
      exact ⟨w', m'', rest, hw', h'⟩

/-- A search never uses a freed entry, though entries which it has returned are deleted while it
goes on. It returns no entry twice, and once it returns `NULL` it has returned all that were there
at its start. -/
theorem returned_perm {cs : List (HashCall kt)} {rs : List HashResult}
    (hm : EntryMap.Run EntryMap.empty cs rs m) (ht : (initHashTable kt).run cs = some (rs, t))
    {o : Option (HashWalk kt)} (h : Reached t o) :
    ∃ w, o = some w ∧ w.returned.Nodup ∧ w.returned ⊆ t.entries.map HashEntry.ptr ∧
      (w.finished = true → w.returned.Perm (t.entries.map HashEntry.ptr)) := by
  obtain ⟨t', ht', hst⟩ := (stores_initHashTable kt).run hm
  obtain rfl : t' = t := congrArg Prod.snd (Option.some.inj (ht'.symm.trans ht))
  obtain ⟨w, m', rest, rfl, hinv⟩ := h.invariant hst
  have hnodup := hinv.perm.nodup_iff.mpr hst.describes.ptrs
  refine ⟨w, rfl, (List.nodup_append.mp hnodup).1, ?_, fun hf => ?_⟩
  · exact fun p hp => hinv.perm.mem_iff.mp (List.mem_append_left _ hp)
  · simpa [hinv.finished hf] using hinv.perm

/-- A table with two entries in one chain. -/
def twoEntries : HashTable .oneWordKeys :=
  { initHashTable .oneWordKeys with
    buckets := [[⟨101, 0, 0, .word 6⟩, ⟨100, 0, 0, .word 5⟩], [], [], []]
    numEntries := 2 }

/-- The table without the first entry of the chain. -/
def lastEntry : HashTable .oneWordKeys :=
  { initHashTable .oneWordKeys with
    buckets := [[⟨100, 0, 0, .word 5⟩], [], [], []]
    numEntries := 1 }

/-- The first entry is deleted once it has been returned, and the search goes on to `NULL`. -/
theorem returned_perm_twoEntries : ∃ w, Reached twoEntries (some w) ∧ w.table = lastEntry ∧
    w.finished = true ∧ w.returned.Nodup ∧
      w.returned.Perm (twoEntries.entries.map HashEntry.ptr) := by
  have hfirst : (EntryMap.empty : EntryMap .oneWordKeys).Room 100 :=
    ⟨by simp [EntryMap.empty], by simp [EntryMap.size, EntryMap.empty]⟩
  have hsecond : EntryMap.Room (Function.update (EntryMap.empty : EntryMap .oneWordKeys) (.word 5)
      (some (100, 0))) 101 := by
    have honly : {key | Function.update (EntryMap.empty : EntryMap .oneWordKeys) (.word 5)
        (some (100, 0)) key ≠ none} = {.word 5} := by
      ext key
      by_cases hkey : key = .word 5
      · simp [hkey]
      · exact iff_of_false (fun hne => hne (Function.update_of_ne hkey _ _)) hkey
    refine ⟨fun key q d hq => ?_, ?_⟩
    · by_cases hkey : key = .word 5
      · rw [hkey, Function.update_self] at hq
        cases hq
        decide
      · rw [Function.update_of_ne hkey] at hq
        cases hq
    · rw [EntryMap.size, honly, Set.ncard_singleton]
      decide
  have hrun : (initHashTable .oneWordKeys).run [.create (.word 5) 100, .create (.word 6) 101] =
      some ([.created 100 true, .created 101 true], twoEntries) := rfl
  have h₁ : Reached twoEntries (some ⟨twoEntries, ⟨1, some 100⟩, [101], false⟩) := Reached.first
  have h₂ : Reached twoEntries (some ⟨lastEntry, ⟨1, some 100⟩, [101], false⟩) :=
    h₁.call (c := .delete 101) ⟨rfl, List.mem_singleton_self 101⟩
  have h₃ : Reached twoEntries (some ⟨lastEntry, ⟨1, none⟩, [101, 100], false⟩) :=
    h₂.call (c := .next) trivial
  have h₄ : Reached twoEntries (some ⟨lastEntry, ⟨4, none⟩, [101, 100], true⟩) :=
    h₃.call (c := .next) trivial
  obtain ⟨w, hw, hnodup, -, hperm⟩ :=
    returned_perm (.cons (.createNew rfl hfirst) (.cons (.createNew rfl hsecond) (.nil _))) hrun h₄
  cases hw
  exact ⟨_, h₄, rfl, rfl, hnodup, hperm rfl⟩

end HashWalk

end OmniCompiler.CFront
