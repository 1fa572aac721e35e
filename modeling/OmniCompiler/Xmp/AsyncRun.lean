import OmniCompiler.Xmp.AsyncMap

/-!
# Runs of asynchronous communications

Every call that meets its condition keeps the table a representation of the map. In a state that
the table represents, an active id finds its own descriptor with what was registered under it, and
any other id finds nothing that is pending.
-/
namespace OmniCompiler.Xmp

open AsyncTable

variable {R N G : Type*}

namespace AsyncTable

/-- What `_XMP_get_async` leads to. -/
def content (t : AsyncTable R N G) (id : ℕ) : Option (AsyncComm R N G) :=
  (t.getAsync id).bind t.deref

end AsyncTable

/-- The descriptor holds exactly what an entry says. -/
structure AsyncComm.Holds (d : AsyncComm R N G) (e : AsyncEntry R N G) : Prop where
  used : d.isUsed = true
  id : d.asyncId = e.id
  reqs : d.reqs = e.reqs
  node : d.node = e.nodes
  gmove : d.gmove.toList = e.gmoves

namespace AsyncMap

/-- The table is a refinement of the map. -/
structure RefinedBy (s : AsyncMap R N G) (t : AsyncTable R N G) : Prop where
  active : ∀ e ∈ s.entries, ∃ ptr d, t.getAsync e.id = some ptr ∧ t.deref ptr = some d ∧ d.Holds e
  unique : ∀ ptr d, t.deref ptr = some d → d.isUsed = true → t.getAsync d.asyncId = some ptr
  distinct : ∀ id ∈ s.ids, ∀ id' ∈ s.ids, t.getAsync id = t.getAsync id' → id = id'
  inactive : ∀ id ∉ s.ids, ∀ ptr, t.getAsync id = some ptr →
    ∃ d, t.deref ptr = some d ∧ d.reqs = [] ∧ d.node = [] ∧ d.gmove = none
  ended : ∀ id, ∀ id' ∈ s.ids, id' ≠ id → (t.endAsync id).content id' = t.content id'

/-- The table represents the map: every slot has the entries of its remainder. -/
structure Represents (s : AsyncMap R N G) (t : AsyncTable R N G) : Prop where
  nodup : s.ids.Nodup
  slots : ∀ h, (t.tab h).Holds (s.bucket h)
  current : s.moved = false → ∀ id, s.current = some id →
    id ∈ s.ids ∧ t.tmpAsync = t.getAsync id

variable {s : AsyncMap R N G} {t : AsyncTable R N G}

theorem mem_bucket {e : AsyncEntry R N G} {h : ℕ} :
    e ∈ s.bucket h ↔ e ∈ s.entries ∧ hashId e.id = h := by
  simp [bucket]

theorem nodup_bucket (hn : s.ids.Nodup) (h : ℕ) : ((s.bucket h).map AsyncEntry.id).Nodup :=
  hn.sublist (List.filter_sublist.map _)

theorem mem_ids_bucket {id : ℕ} : id ∈ (s.bucket (hashId id)).map AsyncEntry.id ↔ id ∈ s.ids := by
  simp only [ids, List.mem_map, mem_bucket]
  constructor
  · rintro ⟨e, he, rfl⟩
    exact ⟨e, he.1, rfl⟩
  · rintro ⟨e, he, rfl⟩
    exact ⟨e, ⟨he, rfl⟩, rfl⟩

theorem bucket_init {id : ℕ} (hid : id ∉ s.ids) (h : ℕ) :
    (s.init id).bucket h = if hashId id = h then s.bucket h ++ [.new id] else s.bucket h := by
  simp only [bucket, init, if_neg hid, List.filter_append]
  split_ifs with hh <;> simp [AsyncEntry.new, hh]

theorem bucket_register {g : AsyncEntry R N G → AsyncEntry R N G} (hg : ∀ x, (g x).id = x.id)
    (h : ℕ) : (s.register g).bucket h =
      (s.bucket h).map fun x => if s.current = some x.id then g x else x := by
  rw [bucket, register, List.filter_map, bucket]
  congr 1
  apply List.filter_congr
  intro x _
  simp only [Function.comp_apply]
  split_ifs <;> simp [hg]

theorem ids_register {g : AsyncEntry R N G → AsyncEntry R N G} (hg : ∀ x, (g x).id = x.id) :
    (s.register g).ids = s.ids := by
  rw [ids, register, List.map_map]
  apply List.map_congr_left
  intro x _
  simp only [Function.comp_apply]
  split_ifs <;> simp [hg]

theorem bucket_finish (id h : ℕ) :
    (s.finish id).bucket h = (s.bucket h).filter fun e => e.id ≠ id := by
  simp only [bucket, finish, List.filter_filter]
  apply List.filter_congr
  intro x _
  rw [Bool.and_comm]

theorem mem_ids_finish {id id' : ℕ} : id' ∈ (s.finish id).ids ↔ id' ∈ s.ids ∧ id' ≠ id := by
  simp only [ids, finish, List.mem_map, List.mem_filter, decide_eq_true_eq]
  constructor
  · rintro ⟨e, he, rfl⟩
    exact ⟨⟨e, he.1, rfl⟩, he.2⟩
  · rintro ⟨⟨e, he, rfl⟩, hne⟩
    exact ⟨e, ⟨he, hne⟩, rfl⟩

namespace Represents

theorem get_of_mem (h : s.Represents t) {e : AsyncEntry R N G} (he : e ∈ s.entries) :
    ∃ cell, (t.tab (hashId e.id)).find e.id = some cell ∧
      (t.tab (hashId e.id)).deref cell = some e.desc :=
  (h.slots _).find_of_mem (nodup_bucket h.nodup _) (mem_bucket.mpr ⟨he, rfl⟩)

theorem content_of_mem (h : s.Represents t) {e : AsyncEntry R N G} (he : e ∈ s.entries) :
    ∃ ptr, t.getAsync e.id = some ptr ∧ t.deref ptr = some e.desc := by
  obtain ⟨cell, hf, hd⟩ := h.get_of_mem he
  exact ⟨⟨hashId e.id, cell⟩, by simp [getAsync, hf], hd⟩

theorem get_of_notMem (h : s.Represents t) {id : ℕ} (hid : id ∉ s.ids) {ptr : AsyncPtr}
    (hp : t.getAsync id = some ptr) :
    ∃ d, t.deref ptr = some d ∧ d.reqs = [] ∧ d.node = [] ∧ d.gmove = none := by
  rcases (h.slots (hashId id)).find_of_notMem (mt mem_ids_bucket.mp hid) with hf | ⟨hf, hb⟩
  · simp [getAsync, hf] at hp
  · obtain rfl : (⟨hashId id, none⟩ : AsyncPtr) = ptr := by simpa [getAsync, hf] using hp
    have hs := h.slots (hashId id)
    rw [hb] at hs
    exact ⟨_, rfl, hs.2.1, hs.2.2.1, hs.2.2.2.1⟩

theorem get_of_deref (h : s.Represents t) {ptr : AsyncPtr} {d : AsyncComm R N G}
    (hd : t.deref ptr = some d) (hu : d.isUsed = true) : t.getAsync d.asyncId = some ptr := by
  obtain ⟨e, he, rfl, hf⟩ := (h.slots ptr.slot).mem_of_deref (nodup_bucket h.nodup _) hd hu
  have hs : hashId e.id = ptr.slot := (mem_bucket.mp he).2
  change t.getAsync e.id = some ptr
  rw [getAsync, hs, hf]
  rfl

theorem get_inj (h : s.Represents t) {id id' : ℕ} (hid : id ∈ s.ids) (hid' : id' ∈ s.ids)
    (heq : t.getAsync id = t.getAsync id') : id = id' := by
  obtain ⟨e, he, rfl⟩ := List.mem_map.mp hid
  obtain ⟨e', he', rfl⟩ := List.mem_map.mp hid'
  obtain ⟨ptr, hp, hd⟩ := h.content_of_mem he
  obtain ⟨ptr', hp', hd'⟩ := h.content_of_mem he'
  obtain rfl : ptr = ptr' := by simpa [hp, hp'] using heq
  have hee : e.desc = e'.desc := by simpa [hd] using hd'
  exact congrArg AsyncComm.asyncId hee

theorem init (h : s.Represents t) (al : Allocator) (id : ℕ) :
    (s.init id).Represents (t.initAsync al id) := by
  have hsl := h.slots (hashId id)
  have hnd := nodup_bucket h.nodup (hashId id)
  by_cases hid : id ∈ s.ids
  · obtain ⟨e, he, rfl⟩ := List.mem_map.mp hid
    obtain ⟨cell, hin, hf⟩ :=
      hsl.init_of_mem hnd (mem_bucket.mpr ⟨he, rfl⟩) (al.next t.used)
    have hs : (s.init e.id).entries = s.entries := if_pos hid
    have ht : (t.initAsync al e.id).tab = t.tab := by simp [initAsync, hin, setSlot]
    refine ⟨by rw [ids, hs]; exact h.nodup, fun k => ?_, fun _ id' hid' => ?_⟩
    · rw [bucket, hs, ht]
      exact h.slots k
    · obtain rfl : e.id = id' := by simpa [AsyncMap.init] using hid'
      refine ⟨by rw [ids, hs]; exact hid, ?_⟩
      rw [getAsync, ht, hf]
      simp [initAsync, hin]
  · have hfresh : al.next t.used ∉ (t.tab (hashId id)).chain.map Prod.fst := by
      intro hm
      apply al.fresh t.used
      exact List.mem_flatMap.mpr ⟨hashId id, List.mem_range.mpr (Nat.mod_lt _ (by decide)), hm⟩
    obtain ⟨hh, hf⟩ := hsl.init_of_notMem (mt mem_ids_bucket.mp hid) hfresh
    have hs : (s.init id).entries = s.entries ++ [.new id] := if_neg hid
    have hids : (s.init id).ids = s.ids ++ [id] := by simp [ids, hs, AsyncEntry.new]
    refine ⟨?_, fun k => ?_, fun _ id' hid' => ?_⟩
    · rw [hids]
      exact List.Nodup.append h.nodup (by simp) (by simpa using hid)
    · rw [bucket_init hid]
      by_cases hk : hashId id = k
      · subst hk
        simpa [initAsync, setSlot] using hh
      · simpa [initAsync, setSlot, hk, Function.update_of_ne (Ne.symm hk)] using h.slots k
    · obtain rfl : id = id' := by simpa [AsyncMap.init] using hid'
      refine ⟨by simp [hids], ?_⟩
      simp [getAsync, initAsync, setSlot, hf]

theorem register (h : s.Represents t) {e : AsyncEntry R N G} (he : e ∈ s.entries)
    (hc : s.current = some e.id) (hm : s.moved = false)
    {f : AsyncComm R N G → Except AsyncFault (AsyncComm R N G)}
    {g : AsyncEntry R N G → AsyncEntry R N G} (hg : ∀ x, (g x).id = x.id)
    (hf : f e.desc = .ok (g e).desc) :
    ∃ t', t.onCurrent f = .ok t' ∧ (s.register g).Represents t' := by
  obtain ⟨cell, hfind, hd⟩ := h.get_of_mem he
  have hsl := h.slots (hashId e.id)
  have hnd := nodup_bucket h.nodup (hashId e.id)
  have heb : e ∈ s.bucket (hashId e.id) := mem_bucket.mpr ⟨he, rfl⟩
  have htmp : t.tmpAsync = some ⟨hashId e.id, cell⟩ := by
    rw [(h.current hm _ hc).2, getAsync, hfind]
    rfl
  set slot' := (t.tab (hashId e.id)).modify (fun _ => (g e).desc) cell with hslot'
  have hget : ∀ id, (t.setSlot (hashId e.id) slot').getAsync id = t.getAsync id := by
    intro id
    by_cases hk : hashId id = hashId e.id
    · simp only [getAsync, setSlot, hk, Function.update_self]
      rw [hslot', hsl.find_modify hnd heb hfind (hg e)]
    · simp only [getAsync, setSlot, Function.update_of_ne hk]
  refine ⟨t.setSlot (hashId e.id) slot', ?_, ?_, fun k => ?_, fun hm' id hid => ?_⟩
  · simp only [onCurrent, htmp, AsyncTable.deref, hd, hf]
    rfl
  · rw [ids_register hg]
    exact h.nodup
  · rw [bucket_register hg]
    by_cases hk : k = hashId e.id
    · subst hk
      have hmod := hsl.modify (g := g) hnd heb hfind
      simp only [hc, Option.some.injEq, setSlot, Function.update_self]
      simpa only [eq_comm] using hmod
    · have hid : (s.bucket k).map (fun x => if s.current = some x.id then g x else x) =
          s.bucket k := by
        conv_rhs => rw [← List.map_id (s.bucket k)]
        apply List.map_congr_left
        intro x hx
        refine if_neg fun hx' => hk ?_
        rw [hc, Option.some.injEq] at hx'
        rw [hx', (mem_bucket.mp hx).2]
      rw [hid]
      simpa [setSlot, Function.update_of_ne hk] using h.slots k
  · rw [ids_register hg, hget]
    exact h.current hm' id hid

theorem register_error (h : s.Represents t) {e : AsyncEntry R N G} (he : e ∈ s.entries)
    (hc : s.current = some e.id) (hm : s.moved = false)
    {f : AsyncComm R N G → Except AsyncFault (AsyncComm R N G)} {x : AsyncFault}
    (hf : f e.desc = .error x) : t.onCurrent f = .error x := by
  obtain ⟨ptr, hp, hd⟩ := h.content_of_mem he
  simp only [onCurrent, (h.current hm _ hc).2, hp, hd, hf]
  rfl

theorem finish (h : s.Represents t) (id : ℕ) : (s.finish id).Represents (t.endAsync id) := by
  have hsl := h.slots (hashId id)
  have hnd := nodup_bucket h.nodup (hashId id)
  refine ⟨h.nodup.sublist (List.filter_sublist.map _), fun k => ?_, fun hm id' hid' => ?_⟩
  · rw [bucket_finish]
    by_cases hk : k = hashId id
    · subst hk
      simpa [endAsync, setSlot] using hsl.finish hnd id
    · have hb : (s.bucket k).filter (fun e => e.id ≠ id) = s.bucket k := by
        rw [List.filter_eq_self]
        intro x hx
        have hx' := (mem_bucket.mp hx).2
        simpa using fun eq : x.id = id => hk (by rw [← hx', eq])
      rw [hb]
      simpa [endAsync, setSlot, Function.update_of_ne hk] using h.slots k
  · obtain ⟨hm, hmv⟩ : s.moved = false ∧ s.movesCurrent id = false := by
      simpa [AsyncMap.finish] using hm
    obtain ⟨hne, hcur⟩ : s.current ≠ some id ∧ s.current = some id' := by
      simpa [AsyncMap.finish] using hid'
    have hii : id' ≠ id := fun e => hne (by rw [hcur, e])
    obtain ⟨hmem, htmp⟩ := h.current hm id' hcur
    refine ⟨mem_ids_finish.mpr ⟨hmem, hii⟩, ?_⟩
    obtain ⟨e, he, rfl⟩ := List.mem_map.mp hmem
    change t.tmpAsync = _
    rw [htmp]
    by_cases hk : hashId e.id = hashId id
    · simp only [getAsync, endAsync, setSlot, hk, Function.update_self]
      rw [hsl.find_finish hnd (mem_bucket.mpr ⟨he, hk⟩) hii]
      intro x xs hb hx
      simp [movesCurrent, hb, hx, hcur] at hmv
    · simp only [getAsync, endAsync, setSlot, Function.update_of_ne hk]

theorem start (h : s.Represents t) :
    ({ s with current := none } : AsyncMap R N G).Represents t.startAsync :=
  ⟨h.nodup, h.slots, fun _ _ hid => by simp at hid⟩

theorem content_end (h : s.Represents t) {id id' : ℕ} (hid' : id' ∈ s.ids) (hne : id' ≠ id) :
    (t.endAsync id).content id' = t.content id' := by
  obtain ⟨e, he, rfl⟩ := List.mem_map.mp hid'
  have he' : e ∈ (s.finish id).entries := List.mem_filter.mpr ⟨he, by simpa using hne⟩
  obtain ⟨ptr, hp, hd⟩ := h.content_of_mem he
  obtain ⟨ptr', hp', hd'⟩ := (h.finish id).content_of_mem he'
  rw [content, hp', Option.bind_some, hd', content, hp, Option.bind_some, hd]

theorem refinedBy (h : s.Represents t) (hg : ∀ e ∈ s.entries, e.gmoves.length ≤ 1) :
    s.RefinedBy t where
  active := by
    intro e he
    obtain ⟨ptr, hp, hd⟩ := h.content_of_mem he
    refine ⟨ptr, e.desc, hp, hd, rfl, rfl, rfl, rfl, ?_⟩
    have hlen := hg e he
    cases hgm : e.gmoves with
    | nil => simp [AsyncEntry.desc, hgm]
    | cons g gs =>
      obtain rfl : gs = [] := by simpa [hgm] using hlen
      simp [AsyncEntry.desc, hgm]
  unique := fun _ _ => h.get_of_deref
  distinct := fun _ hid _ hid' => h.get_inj hid hid'
  inactive := fun _ hid _ => h.get_of_notMem hid
  ended := fun _ _ hid' hne => h.content_end hid' hne

theorem step (h : s.Represents t) (al : Allocator) {op : AsyncOp R N G} (hop : s.Meets op) :
    (∃ msg, t.step al op = .error (.fatal msg)) ∨
      ∃ t', t.step al op = .ok t' ∧ (s.step op).Represents t' := by
  cases op with
  | init id => exact Or.inr ⟨_, rfl, h.init al id⟩
  | start => exact Or.inr ⟨_, rfl, h.start⟩
  | finish id => exact Or.inr ⟨_, rfl, h.finish id⟩
  | request r =>
    obtain ⟨hm, e, he, hc, hr⟩ := hop
    refine Or.inr (h.register he hc hm (fun _ => rfl) ?_)
    simp [addRequest, AsyncEntry.desc, hr, AsyncOp.record]
  | templateBcast r =>
    obtain ⟨hm, e, he, hc, hr⟩ := hop
    refine Or.inr (h.register he hc hm (fun _ => rfl) ?_)
    simp [setRequest, AsyncEntry.desc, hr, AsyncOp.record]
  | reflect rs =>
    obtain ⟨hm, e, he, hc, -⟩ := hop
    by_cases hl : e.reqs.length + rs.length > maxAsyncReqs
    · exact Or.inl ⟨_, h.register_error he hc hm (if_pos hl)⟩
    · refine Or.inr (h.register he hc hm (fun _ => rfl) ?_)
      exact (if_neg hl).trans (if_pos rfl)
  | node n =>
    obtain ⟨hm, e, he, hc, -⟩ := hop
    by_cases hl : e.nodes.length ≥ maxAsyncNodes
    · exact Or.inl ⟨_, h.register_error he hc hm (if_pos hl)⟩
    · exact Or.inr (h.register he hc hm (fun _ => rfl) (if_neg hl))
  | gmove r g =>
    obtain ⟨hm, e, he, hc, hr, -⟩ := hop
    refine Or.inr (h.register he hc hm (fun _ => rfl) ?_)
    cases r with
    | none => simp [addGmove, AsyncEntry.desc, AsyncOp.record, bind, Except.bind]
    | some r =>
      simp [addGmove, addRequest, AsyncEntry.desc, AsyncOp.record, hr rfl, bind, Except.bind]

end Represents

def OneGmove (s : AsyncMap R N G) : Prop := ∀ e ∈ s.entries, e.gmoves.length ≤ 1

theorem OneGmove.step (h : s.OneGmove) (hn : s.ids.Nodup) {op : AsyncOp R N G}
    (hop : s.Meets op) : (s.step op).OneGmove := by
  have hreg : (∀ e ∈ s.entries, s.current = some e.id → (op.record e).gmoves.length ≤ 1) →
      (s.register op.record).OneGmove := by
    intro hr x hx
    obtain ⟨e, he, rfl⟩ := List.mem_map.mp hx
    by_cases hc : s.current = some e.id
    · simpa [hc] using hr e he hc
    · simpa [hc] using h e he
  cases op with
  | init id =>
    intro x hx
    by_cases hid : id ∈ s.ids
    · exact h x (by simpa [AsyncMap.step, init, hid] using hx)
    · have hx' : x ∈ s.entries ∨ x = .new id := by simpa [AsyncMap.step, init, hid] using hx
      rcases hx' with hx | rfl
      · exact h x hx
      · simp [AsyncEntry.new]
  | start => exact h
  | finish id => exact fun x hx => h x (List.mem_filter.mp hx).1
  | request r => exact hreg fun e he _ => h e he
  | templateBcast r => exact hreg fun e he _ => h e he
  | reflect rs => exact hreg fun e he _ => h e he
  | node n => exact hreg fun e he _ => h e he
  | gmove r g =>
    obtain ⟨-, x, hx, hcx, -, hg⟩ := hop
    refine hreg fun e he hc => ?_
    have hid : e.id = x.id := by simpa [hc] using hcx
    obtain rfl := List.inj_on_of_nodup_map hn he hx hid
    simp [AsyncOp.record, hg]

theorem Represents.run (al : Allocator) {ops : List (AsyncOp R N G)} :
    ∀ {s : AsyncMap R N G} {t : AsyncTable R N G}, s.Represents t → s.OneGmove → s.AllMeet ops →
      (∃ msg, t.run al ops = .error (.fatal msg)) ∨
        ∃ t', t.run al ops = .ok t' ∧ (s.run ops).Represents t' ∧ (s.run ops).OneGmove := by
  induction ops with
  | nil => exact fun h hg _ => Or.inr ⟨_, rfl, h, hg⟩
  | cons op ops ih =>
    intro s t h hg hops
    rcases h.step al hops.1 with ⟨msg, hs⟩ | ⟨t', hs, h'⟩
    · exact Or.inl ⟨msg, by simp [AsyncTable.run, hs, bind, Except.bind]⟩
    · have hrun : t.run al (op :: ops) = t'.run al ops := by
        simp [AsyncTable.run, hs, bind, Except.bind]
      rw [hrun]
      exact ih h' (hg.step h.nodup hops.1) hops.2

theorem represents_empty : (empty : AsyncMap R N G).Represents initialTab :=
  ⟨List.nodup_nil, fun _ => ⟨rfl, rfl, rfl, rfl, rfl⟩, fun _ _ h => by simp [empty] at h⟩

end AsyncMap

/-- In every program whose calls meet their conditions the table is a refinement of the map, in
every state that the program reaches. -/
theorem asyncTable_refines (al : Allocator) (ops : List (AsyncOp R N G))
    (hops : AsyncMap.empty.AllMeet ops) :
    (∃ msg, initialTab.run al ops = .error (.fatal msg)) ∨
      ∃ t, initialTab.run al ops = .ok t ∧ (AsyncMap.empty.run ops).RefinedBy t := by
  rcases AsyncMap.represents_empty.run al (fun e he => by simp [AsyncMap.empty] at he) hops with
    hf | ⟨t, ht, h, hg⟩
  · exact Or.inl hf
  · exact Or.inr ⟨t, ht, h.refinedBy hg⟩

/-- An allocator that hands out an address above all others. -/
def Allocator.above : Allocator where
  next used := used.sum + 1
  fresh used h := by
    have := List.single_le_sum (by simp) _ h
    omega

/-- Two ids that share a slot; the one in the slot is ended while the other is pending. -/
def collidingOps : List (AsyncOp ℕ ℕ ℕ) :=
  [.init 3, .templateBcast 10, .start, .init 514, .gmove (some 11) 12, .node 13, .start,
    .finish 3]

theorem asyncTable_refines_colliding :
    AsyncMap.empty.AllMeet collidingOps ∧
      ((∃ msg, initialTab.run .above collidingOps = .error (.fatal msg)) ∨
        ∃ t, initialTab.run .above collidingOps = .ok t ∧
          (AsyncMap.empty.run collidingOps).RefinedBy t) := by
  have h : AsyncMap.empty.AllMeet collidingOps := by
    simp [collidingOps, AsyncMap.AllMeet, AsyncMap.Meets, AsyncMap.OnCurrent, AsyncMap.step,
      AsyncMap.init, AsyncMap.register, AsyncMap.empty, AsyncMap.ids, AsyncEntry.new,
      AsyncOp.record, maxAsyncReqs]
  exact ⟨h, asyncTable_refines _ _ h⟩

/-- Two gmoves under one id: the second takes the place of the first in the descriptor. -/
def twoGmoves : List (AsyncOp ℕ ℕ ℕ) :=
  [.init 7, .gmove (some 1) 100, .start, .init 7, .gmove (some 2) 200, .start]

/-- After two gmoves under one id the first is in no descriptor; after the end of an id that shares
the slot, the current descriptor has been freed and a registration writes to it. -/
theorem asyncTable_loses_gmove :
    (∃ t, initialTab.run .above twoGmoves = .ok t ∧
      ¬ (AsyncMap.empty.run twoGmoves).RefinedBy t) ∧
    initialTab.run .above
      ([.init 3, .start, .init 514, .finish 3, .request 1] : List (AsyncOp ℕ ℕ ℕ)) =
      .error .undefinedBehaviour := by
  constructor
  · refine ⟨_, rfl, fun h => ?_⟩
    have hmem : ⟨7, [some 1, some 2], [], [100, 200]⟩ ∈ (AsyncMap.empty.run twoGmoves).entries := by
      simp [twoGmoves, AsyncMap.run, AsyncMap.step, AsyncMap.init, AsyncMap.register,
        AsyncMap.empty, AsyncMap.ids, AsyncEntry.new, AsyncOp.record]
    obtain ⟨ptr, d, hp, hd, hh⟩ := h.active _ hmem
    have := congrArg List.length hh.gmove
    cases hg : d.gmove <;> simp [hg] at this
  · rfl

end OmniCompiler.Xmp
