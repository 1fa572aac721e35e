import OmniCompiler.Xmp.AsyncTable

/-!
# The table of asynchronous communications as a finite map

The map has one entry for every active id, with all that the program registered under it. The
table represents the map when every slot holds the entries of its remainder, the oldest in the
slot and the others along the chain.
-/
namespace OmniCompiler.Xmp

variable {R N G : Type*}

structure AsyncEntry (R N G : Type*) where
  id : ℕ
  reqs : List (Option R)
  nodes : List N
  gmoves : List G

namespace AsyncEntry

/-- The descriptor of an entry. It has room for one gmove. -/
def desc (e : AsyncEntry R N G) : AsyncComm R N G :=
  ⟨e.id, true, true, e.reqs, e.nodes, e.gmoves.getLast?⟩

def new (id : ℕ) : AsyncEntry R N G := ⟨id, [], [], []⟩

end AsyncEntry

/-- The active ids in the order in which they became active, and the id of the last
`xmpc_init_async` until `xmpc_start_async`. `moved` tells that the descriptor of this id has been
moved since. -/
structure AsyncMap (R N G : Type*) where
  entries : List (AsyncEntry R N G)
  current : Option ℕ
  moved : Bool

namespace AsyncMap

def empty : AsyncMap R N G := ⟨[], none, false⟩

def ids (s : AsyncMap R N G) : List ℕ := s.entries.map AsyncEntry.id

def bucket (s : AsyncMap R N G) (h : ℕ) : List (AsyncEntry R N G) :=
  s.entries.filter fun e => AsyncTable.hashId e.id = h

/-- Ending `id` moves the descriptor of the current id from the chain into the slot. -/
def movesCurrent (s : AsyncMap R N G) (id : ℕ) : Bool :=
  match s.bucket (AsyncTable.hashId id) with
  | e :: e' :: _ => e.id = id ∧ s.current = some e'.id
  | _ => false

def init (s : AsyncMap R N G) (id : ℕ) : AsyncMap R N G where
  entries := if id ∈ s.ids then s.entries else s.entries ++ [.new id]
  current := some id
  moved := false

def register (s : AsyncMap R N G) (f : AsyncEntry R N G → AsyncEntry R N G) : AsyncMap R N G :=
  { s with entries := s.entries.map fun e => if s.current = some e.id then f e else e }

def finish (s : AsyncMap R N G) (id : ℕ) : AsyncMap R N G where
  entries := s.entries.filter fun e => e.id ≠ id
  current := if s.current = some id then none else s.current
  moved := s.moved || s.movesCurrent id

end AsyncMap

def AsyncOp.record : AsyncOp R N G → AsyncEntry R N G → AsyncEntry R N G
  | .request r, e | .templateBcast r, e => { e with reqs := e.reqs ++ [some r] }
  | .reflect rs, e => { e with reqs := e.reqs ++ rs.map some }
  | .node n, e => { e with nodes := e.nodes ++ [n] }
  | .gmove r g, e => { e with reqs := e.reqs ++ [r], gmoves := e.gmoves ++ [g] }
  | _, e => e

namespace AsyncMap

def step (s : AsyncMap R N G) : AsyncOp R N G → AsyncMap R N G
  | .init id => s.init id
  | .start => { s with current := none }
  | .finish id => s.finish id
  | op => s.register op.record

def run (s : AsyncMap R N G) (ops : List (AsyncOp R N G)) : AsyncMap R N G :=
  ops.foldl step s

/-- There is a current id, its descriptor is where `xmpc_init_async` found it, and its entry meets
a condition. -/
def OnCurrent (s : AsyncMap R N G) (p : AsyncEntry R N G → Prop) : Prop :=
  s.moved = false ∧ ∃ e ∈ s.entries, s.current = some e.id ∧ p e

/-- What a call needs: a registration goes to a current id that has not been ended or moved, a
request finds room in the buffer, a broadcast on a template is the first request, and an id gets one
gmove. -/
def Meets (s : AsyncMap R N G) : AsyncOp R N G → Prop
  | .request _ => s.OnCurrent fun e => e.reqs.length < maxAsyncReqs
  | .templateBcast _ => s.OnCurrent fun e => e.reqs = []
  | .reflect _ => s.OnCurrent fun _ => True
  | .node _ => s.OnCurrent fun _ => True
  | .gmove r _ => s.OnCurrent fun e =>
      (r.isSome = true → e.reqs.length < maxAsyncReqs) ∧ e.gmoves = []
  | _ => True

/-- Every call of a program meets the condition in the state in which it is made. -/
def AllMeet (s : AsyncMap R N G) : List (AsyncOp R N G) → Prop
  | [] => True
  | op :: ops => s.Meets op ∧ (s.step op).AllMeet ops

end AsyncMap

section Lists

variable {α β : Type*} [DecidableEq β]

theorem find?_eq_of_nodup_map (f : α → β) {l : List α} (h : (l.map f).Nodup) {x : α}
    (hx : x ∈ l) : l.find? (fun y => f y = f x) = some x := by
  induction l with
  | nil => simp at hx
  | cons y l ih =>
    simp only [List.map_cons, List.nodup_cons] at h
    rcases List.mem_cons.mp hx with rfl | hx
    · simp
    · have hne : f y ≠ f x := fun e => h.1 (e ▸ List.mem_map_of_mem hx)
      rw [List.find?_cons_of_neg (by simpa using hne)]
      exact ih h.2 hx

theorem find?_eq_none_of_notMem_map (f : α → β) {l : List α} {b : β} (h : b ∉ l.map f) :
    l.find? (fun y => f y = b) = none := by
  rw [List.find?_eq_none]
  intro y hy
  simpa using fun e => h (List.mem_map.mpr ⟨y, hy, e⟩)

theorem eraseP_eq_filter_of_nodup_map (f : α → β) {l : List α} (h : (l.map f).Nodup) (b : β) :
    l.eraseP (fun y => f y = b) = l.filter fun y => f y ≠ b := by
  induction l with
  | nil => rfl
  | cons y l ih =>
    simp only [List.map_cons, List.nodup_cons] at h
    by_cases hy : f y = b
    · have hl : l.filter (fun z => f z ≠ b) = l := by
        rw [List.filter_eq_self]
        intro z hz
        simpa using fun e : f z = b => h.1 (by rw [hy, ← e]; exact List.mem_map_of_mem hz)
      rw [List.eraseP_cons_of_pos (by simpa using hy),
        List.filter_cons_of_neg (by simpa using hy), hl]
    · rw [List.eraseP_cons_of_neg (by simpa using hy), List.filter_cons_of_pos (by simpa using hy),
        ih h.2]

end Lists

namespace AsyncSlot

/-- The slot has the entries of a bucket. -/
def Holds (slot : AsyncSlot R N G) : List (AsyncEntry R N G) → Prop
  | [] => slot.head.isUsed = false ∧ slot.head.reqs = [] ∧ slot.head.node = [] ∧
      slot.head.gmove = none ∧ slot.chain = []
  | e :: es => slot.head = e.desc ∧ slot.chain.map Prod.snd = es.map AsyncEntry.desc ∧
      (slot.chain.map Prod.fst).Nodup

variable {slot : AsyncSlot R N G} {e : AsyncEntry R N G} {es : List (AsyncEntry R N G)}

theorem chain_ids (h : slot.chain.map Prod.snd = es.map AsyncEntry.desc) :
    slot.chain.map (fun c => c.2.asyncId) = es.map AsyncEntry.id := by
  have := congrArg (List.map AsyncComm.asyncId) h
  simpa [Function.comp_def, AsyncEntry.desc] using this

/-- The cell of an entry of the chain is found by its id and by its address. -/
theorem chain_find (h : slot.chain.map Prod.snd = es.map AsyncEntry.desc)
    (hn : (slot.chain.map Prod.fst).Nodup) (hi : (es.map AsyncEntry.id).Nodup) {x}
    (hx : x ∈ es) : ∃ addr, (addr, x.desc) ∈ slot.chain ∧
      slot.chain.find? (fun c => c.2.asyncId = x.id) = some (addr, x.desc) ∧
      slot.chain.find? (fun c => c.1 = addr) = some (addr, x.desc) := by
  have hm : x.desc ∈ slot.chain.map Prod.snd := h ▸ List.mem_map_of_mem hx
  obtain ⟨⟨addr, d⟩, hc, rfl : d = x.desc⟩ := List.mem_map.mp hm
  rw [← chain_ids h] at hi
  exact ⟨addr, hc, find?_eq_of_nodup_map (fun c => c.2.asyncId) hi hc,
    find?_eq_of_nodup_map Prod.fst hn hc⟩

/-- In a chain the cell at an address and the cell of an id are the same. -/
theorem chain_at (h : slot.chain.map Prod.snd = es.map AsyncEntry.desc)
    (hn : (slot.chain.map Prod.fst).Nodup) (hi : (es.map AsyncEntry.id).Nodup) {addr : ℕ}
    (ha : (addr, e.desc) ∈ slot.chain) {c} (hc : c ∈ slot.chain) :
    c.1 = addr ↔ c.2.asyncId = e.id := by
  constructor
  · intro eq
    rw [List.inj_on_of_nodup_map hn hc ha eq]
    rfl
  · intro eq
    rw [← chain_ids h] at hi
    rw [List.inj_on_of_nodup_map hi hc ha eq]

theorem Holds.find_of_mem (h : slot.Holds es) (hi : (es.map AsyncEntry.id).Nodup)
    (he : e ∈ es) : ∃ cell, slot.find e.id = some cell ∧ slot.deref cell = some e.desc := by
  cases es with
  | nil => simp at he
  | cons x es =>
    obtain ⟨hh, hc, hn⟩ := h
    simp only [List.map_cons, List.nodup_cons] at hi
    rcases List.mem_cons.mp he with rfl | he
    · exact ⟨none, by simp [find, hh, AsyncEntry.desc], by simp [deref, hh]⟩
    · have hne : x.id ≠ e.id := fun eq => hi.1 (eq ▸ List.mem_map_of_mem he)
      obtain ⟨addr, -, hfi, hfa⟩ := chain_find hc hn hi.2 he
      refine ⟨some addr, ?_, by simp [deref, hfa]⟩
      rw [find, if_neg (by simpa [hh, AsyncEntry.desc] using hne), hfi]
      rfl

/-- An id that is not active finds nothing, or the descriptor of a slot that is not in use. -/
theorem Holds.find_of_notMem (h : slot.Holds es) {id : ℕ} (hid : id ∉ es.map AsyncEntry.id) :
    slot.find id = none ∨ slot.find id = some none ∧ es = [] := by
  cases es with
  | nil =>
    by_cases hh : slot.head.asyncId = id
    · exact Or.inr ⟨by simp [find, hh], rfl⟩
    · exact Or.inl (by simp [find, hh, h.2.2.2.2])
  | cons x es =>
    obtain ⟨hh, hc, -⟩ := h
    simp only [List.map_cons, List.mem_cons, not_or] at hid
    refine Or.inl ?_
    rw [find, if_neg (by simpa [hh, AsyncEntry.desc] using fun e => hid.1 e.symm),
      find?_eq_none_of_notMem_map (fun c : ℕ × AsyncComm R N G => c.2.asyncId)
        (by rw [chain_ids hc]; exact hid.2)]
    rfl

theorem Holds.mem_of_deref (h : slot.Holds es) (hi : (es.map AsyncEntry.id).Nodup)
    {cell : Option ℕ} {d : AsyncComm R N G} (hd : slot.deref cell = some d)
    (hu : d.isUsed = true) : ∃ e ∈ es, d = e.desc ∧ slot.find e.id = some cell := by
  cases es with
  | nil =>
    obtain ⟨hh, -, -, -, hc⟩ := h
    cases cell with
    | none =>
      obtain rfl : slot.head = d := by simpa [deref] using hd
      simp [hh] at hu
    | some addr => simp [deref, hc] at hd
  | cons x es =>
    obtain ⟨hh, hc, hn⟩ := h
    cases cell with
    | none =>
      obtain rfl : slot.head = d := by simpa [deref] using hd
      exact ⟨x, by simp, hh, by simp [find, hh, AsyncEntry.desc]⟩
    | some addr =>
      obtain ⟨c, hf, rfl⟩ : ∃ c, slot.chain.find? (fun c => c.1 = addr) = some c ∧ c.2 = d := by
        simpa [deref] using hd
      have hcm : c ∈ slot.chain := List.mem_of_find?_eq_some hf
      have hm : c.2 ∈ es.map AsyncEntry.desc := hc ▸ List.mem_map_of_mem hcm
      obtain ⟨y, hy, hyc⟩ := List.mem_map.mp hm
      simp only [List.map_cons, List.nodup_cons] at hi
      have hxy : x.id ≠ y.id := fun eq => hi.1 (eq ▸ List.mem_map_of_mem hy)
      obtain ⟨a, ha, hfi, -⟩ := chain_find hc hn hi.2 hy
      have haddr : c.1 = addr := by simpa using List.find?_some hf
      have hac : c.1 = a := (chain_at hc hn hi.2 ha hcm).mpr (by rw [← hyc]; rfl)
      refine ⟨y, by simp [hy], hyc.symm, ?_⟩
      rw [find, if_neg (by simpa [hh, AsyncEntry.desc] using hxy), hfi, ← haddr, hac]
      rfl

theorem Holds.init_of_mem (h : slot.Holds es) (hi : (es.map AsyncEntry.id).Nodup) (he : e ∈ es)
    (addr : ℕ) : ∃ cell, slot.init e.id addr = (slot, cell) ∧ slot.find e.id = some cell := by
  cases es with
  | nil => simp at he
  | cons x es =>
    obtain ⟨hh, hc, hn⟩ := h
    simp only [List.map_cons, List.nodup_cons] at hi
    by_cases hx : x.id = e.id
    · exact ⟨none, by simp [init, hh, AsyncEntry.desc, hx], by simp [find, hh, AsyncEntry.desc, hx]⟩
    · have he' : e ∈ es := by
        rcases List.mem_cons.mp he with rfl | he
        · exact absurd rfl hx
        · exact he
      obtain ⟨a, -, hfi, -⟩ := chain_find hc hn hi.2 he'
      have hx' : ¬ slot.head.asyncId = e.id := by simpa [hh, AsyncEntry.desc] using hx
      have hu : ¬ slot.head.isUsed = false := by simp [hh, AsyncEntry.desc]
      exact ⟨some a, by rw [init, if_neg hu, if_neg hx', hfi], by rw [find, if_neg hx', hfi]; rfl⟩

theorem Holds.init_of_notMem (h : slot.Holds es) {id addr : ℕ}
    (hid : id ∉ es.map AsyncEntry.id) (ha : addr ∉ slot.chain.map Prod.fst) :
    (slot.init id addr).1.Holds (es ++ [.new id]) ∧
      (slot.init id addr).1.find id = some (slot.init id addr).2 := by
  cases es with
  | nil =>
    obtain ⟨hh, hr, hn, hg, hc⟩ := h
    simp [init, Holds, find, AsyncEntry.desc, AsyncEntry.new, hh, hr, hn, hg, hc]
  | cons x es =>
    obtain ⟨hh, hc, hn⟩ := h
    simp only [List.map_cons, List.mem_cons, not_or] at hid
    have hx : x.id ≠ id := fun e => hid.1 e.symm
    have hf : slot.chain.find? (fun c => c.2.asyncId = id) = none :=
      find?_eq_none_of_notMem_map (fun c : ℕ × AsyncComm R N G => c.2.asyncId)
        (by rw [chain_ids hc]; exact hid.2)
    have hinit : slot.init id addr =
        ({ slot with chain := slot.chain ++ [(addr, newDesc id)] }, some addr) := by
      rw [init, if_neg (by simp [hh, AsyncEntry.desc]),
        if_neg (by simpa [hh, AsyncEntry.desc] using hx), hf]
    rw [hinit]
    refine ⟨⟨hh, ?_, ?_⟩, ?_⟩
    · simp [hc, newDesc, AsyncEntry.desc, AsyncEntry.new]
    · rw [List.map_append, List.map_singleton]
      exact List.Nodup.append hn (by simp) (by simpa using ha)
    · rw [find, if_neg (by simpa [hh, AsyncEntry.desc] using hx), List.find?_append, hf]
      simp [newDesc]

theorem Holds.cell_cases {x : AsyncEntry R N G} (h : slot.Holds (x :: es))
    (hi : ((x :: es).map AsyncEntry.id).Nodup) (he : e ∈ x :: es) {cell : Option ℕ}
    (hf : slot.find e.id = some cell) :
    (e = x ∧ cell = none) ∨
      (e ∈ es ∧ x.id ≠ e.id ∧ ∃ addr, cell = some addr ∧ (addr, e.desc) ∈ slot.chain) := by
  obtain ⟨hh, hc, hn⟩ := h
  simp only [List.map_cons, List.nodup_cons] at hi
  rcases List.mem_cons.mp he with rfl | he
  · exact Or.inl ⟨rfl, by simpa [find, hh, AsyncEntry.desc, eq_comm] using hf⟩
  · have hx : x.id ≠ e.id := fun eq => hi.1 (eq ▸ List.mem_map_of_mem he)
    obtain ⟨a, ha, hfi, -⟩ := chain_find hc hn hi.2 he
    rw [find, if_neg (by simpa [hh, AsyncEntry.desc] using hx), hfi] at hf
    exact Or.inr ⟨he, hx, a, by simpa [eq_comm] using hf, ha⟩

theorem Holds.modify (h : slot.Holds es) (hi : (es.map AsyncEntry.id).Nodup) (he : e ∈ es)
    {g : AsyncEntry R N G → AsyncEntry R N G} {cell : Option ℕ} (hf : slot.find e.id = some cell) :
    (slot.modify (fun _ => (g e).desc) cell).Holds
      (es.map fun x => if x.id = e.id then g x else x) := by
  cases es with
  | nil => simp at he
  | cons x es =>
    have hu := List.inj_on_of_nodup_map hi
    obtain ⟨rfl, rfl⟩ | ⟨-, hx, a, rfl, ha⟩ := h.cell_cases hi he hf
    · obtain ⟨hh, hc, hn⟩ := h
      simp only [List.map_cons, List.nodup_cons] at hi
      have hes : (es.map fun y => if y.id = e.id then g y else y) = es := by
        conv_rhs => rw [← List.map_id es]
        apply List.map_congr_left
        intro y hy
        have hy' : y.id ≠ e.id := fun eq => hi.1 (eq ▸ List.mem_map_of_mem hy)
        exact if_neg hy'
      simp only [List.map_cons, if_pos, hes]
      exact ⟨rfl, hc, hn⟩
    · obtain ⟨hh, hc, hn⟩ := h
      simp only [List.map_cons, List.nodup_cons] at hi
      simp only [List.map_cons, if_neg hx]
      refine ⟨hh, ?_, ?_⟩
      · calc (slot.chain.map fun c => if c.1 = a then (c.1, (g e).desc) else c).map Prod.snd
            = slot.chain.map fun c => if c.2.asyncId = e.id then (g e).desc else c.2 := by
              rw [List.map_map]
              apply List.map_congr_left
              intro c hc'
              by_cases h' : c.1 = a <;> simp [h', ← chain_at hc hn hi.2 ha hc']
          _ = (slot.chain.map Prod.snd).map
                fun d => if d.asyncId = e.id then (g e).desc else d := by
              rw [List.map_map]
              rfl
          _ = _ := by
              rw [hc, List.map_map, List.map_map]
              apply List.map_congr_left
              intro y hy
              by_cases hye : y.id = e.id
              · obtain rfl := hu (List.mem_cons_of_mem _ hy) he hye
                simp [AsyncEntry.desc]
              · simp [AsyncEntry.desc, hye]
      · have : (slot.chain.map fun c => if c.1 = a then (c.1, (g e).desc) else c).map Prod.fst =
            slot.chain.map Prod.fst := by
          rw [List.map_map]
          apply List.map_congr_left
          intro c _
          by_cases h' : c.1 = a <;> simp [h']
        exact this ▸ hn

/-- A change that keeps the id of the entry keeps where the ids are found. -/
theorem Holds.find_modify (h : slot.Holds es) (hi : (es.map AsyncEntry.id).Nodup) (he : e ∈ es)
    {d : AsyncComm R N G} {cell : Option ℕ} (hf : slot.find e.id = some cell)
    (hd : d.asyncId = e.id) (id : ℕ) : (slot.modify (fun _ => d) cell).find id = slot.find id := by
  cases es with
  | nil => simp at he
  | cons x es =>
    obtain ⟨rfl, rfl⟩ | ⟨-, hx, a, rfl, ha⟩ := h.cell_cases hi he hf
    · simp [find, AsyncSlot.modify, hd, h.1, AsyncEntry.desc]
    · obtain ⟨-, hc, hn⟩ := h
      simp only [List.map_cons, List.nodup_cons] at hi
      simp only [find, AsyncSlot.modify]
      congr 1
      rw [List.find?_map, Option.map_map]
      congr 1
      · funext c
        by_cases h' : c.1 = a <;> simp [h']
      · apply List.find?_congr
        intro c hc'
        by_cases h' : c.1 = a
        · simp [h', hd, (chain_at hc hn hi.2 ha hc').mp h']
        · simp [h']

theorem Holds.finish (h : slot.Holds es) (hi : (es.map AsyncEntry.id).Nodup) (id : ℕ) :
    (slot.finish id).Holds (es.filter fun e => e.id ≠ id) := by
  cases es with
  | nil => simpa [AsyncSlot.finish, h.1] using h
  | cons x es =>
    obtain ⟨hh, hc, hn⟩ := h
    simp only [List.map_cons, List.nodup_cons] at hi
    have hu : ¬ slot.head.isUsed = false := by simp [hh, AsyncEntry.desc]
    by_cases hx : x.id = id
    · have hh' : slot.head.asyncId = id := by simpa [hh, AsyncEntry.desc] using hx
      have hes : es.filter (fun e => e.id ≠ id) = es := by
        rw [List.filter_eq_self]
        intro y hy
        simpa using fun eq : y.id = id => hi.1 (by rw [hx, ← eq]; exact List.mem_map_of_mem hy)
      rw [AsyncSlot.finish, if_neg hu, if_pos hh', List.filter_cons_of_neg (by simpa using hx), hes]
      cases es with
      | nil =>
        have hnil : slot.chain = [] := by simpa using hc
        rw [hnil]
        exact ⟨rfl, rfl, rfl, rfl, rfl⟩
      | cons y es =>
        cases hch : slot.chain with
        | nil => simp [hch] at hc
        | cons c rest =>
          rw [hch] at hc hn
          simp only [List.map_cons, List.cons.injEq, List.nodup_cons] at hc hn
          exact ⟨hc.1, hc.2, hn.2⟩
    · have hh' : ¬ slot.head.asyncId = id := by simpa [hh, AsyncEntry.desc] using hx
      rw [AsyncSlot.finish, if_neg hu, if_neg hh', List.filter_cons_of_pos (by simpa using hx)]
      refine ⟨hh, ?_, hn.sublist (List.eraseP_sublist.map _)⟩
      rw [← chain_ids hc] at hi
      calc (slot.chain.eraseP fun c => c.2.asyncId = id).map Prod.snd
          = (slot.chain.map Prod.snd).filter fun d => d.asyncId ≠ id := by
            rw [eraseP_eq_filter_of_nodup_map (fun c : ℕ × AsyncComm R N G => c.2.asyncId) hi.2,
              List.filter_map]
            rfl
        _ = _ := by
            rw [hc, List.filter_map]
            rfl

/-- The descriptors of the other ids stay in place, except for the one behind an ended head. -/
theorem Holds.find_finish (h : slot.Holds es) (hi : (es.map AsyncEntry.id).Nodup) {id : ℕ}
    (he : e ∈ es) (hne : e.id ≠ id) (hm : ∀ x xs, es = x :: e :: xs → x.id ≠ id) :
    (slot.finish id).find e.id = slot.find e.id := by
  cases es with
  | nil => simp at he
  | cons x es =>
    obtain ⟨hh, hc, hn⟩ := h
    have hu := List.inj_on_of_nodup_map hi
    have hused : ¬ slot.head.isUsed = false := by simp [hh, AsyncEntry.desc]
    by_cases hx : x.id = id
    · have hxe : ¬ slot.head.asyncId = e.id := by
        simpa [hh, AsyncEntry.desc, hx] using fun eq => hne eq.symm
      have hh' : slot.head.asyncId = id := by simpa [hh, AsyncEntry.desc] using hx
      cases es with
      | nil => exact absurd hx (by simp_all)
      | cons y es =>
        have hye : y.id ≠ e.id := by
          intro eq
          obtain rfl := hu (by simp) he eq
          exact hm x es rfl hx
        cases hch : slot.chain with
        | nil => simp [hch] at hc
        | cons c rest =>
          rw [hch] at hc
          simp only [List.map_cons, List.cons.injEq] at hc
          have hce : ¬ c.2.asyncId = e.id := by simpa [hc.1, AsyncEntry.desc] using hye
          rw [AsyncSlot.finish, if_neg hused, if_pos hh', hch]
          simp only [find, if_neg hxe, if_neg hce, hch]
          rw [List.find?_cons_of_neg (by simpa using hce)]
    · have hh' : ¬ slot.head.asyncId = id := by simpa [hh, AsyncEntry.desc] using hx
      simp only [List.map_cons, List.nodup_cons] at hi
      rw [← chain_ids hc] at hi
      rw [AsyncSlot.finish, if_neg hused, if_neg hh']
      simp only [find]
      rw [eraseP_eq_filter_of_nodup_map (fun c : ℕ × AsyncComm R N G => c.2.asyncId) hi.2,
        List.find?_filter]
      congr 2
      apply List.find?_congr
      intro c _
      by_cases hce : c.2.asyncId = e.id <;> simp [hce, hne]

end AsyncSlot

end OmniCompiler.Xmp
