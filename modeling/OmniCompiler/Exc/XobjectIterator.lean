import Mathlib.Data.List.Nodup
import Mathlib.Data.Set.Defs

/-!
# Iterators over an `Xobject` (`topdownXobjectIterator.java`, `bottomupXobjectIterator.java`)

Passes of the compiler walk over an expression with one of these iterators and replace the argument
that they are at. The arguments of an `XobjList` are cells, which are shared by what is replaced and
by what it is replaced with, so objects and cells have addresses here. The cells of a list stay
linked in their order; a list is given by them.
-/
namespace OmniCompiler.Exc.XobjectIterator

inductive Xcode
  | idList
  | fBlockStatement
  | other (name : String)
  deriving DecidableEq

/-- An object; `args` are the cells of an `XobjList`, there are none in other objects. -/
structure Xobject where
  code : Xcode
  args : List ℕ

/-- The objects, and what the cells hold. -/
structure Heap where
  objects : ℕ → Xobject
  arg : ℕ → Option ℕ

/-- The cells of the arguments that the iterators go through. -/
def Heap.argsOf (h : Heap) (x : ℕ) : List ℕ :=
  if (h.objects x).code = .idList then [] else (h.objects x).args

/-- `setArg` of a cell. -/
def Heap.setArg (h : Heap) (c : ℕ) (x : Option ℕ) : Heap :=
  { h with arg := Function.update h.arg c x }

/-- One place on the way of an iterator: the cell, what it holds, and `getParent`. -/
structure Visit where
  cell : Option ℕ
  object : Option ℕ
  parent : Option ℕ
  deriving DecidableEq

/-- `trimBlockStmt` keeps the iterator out of this object. -/
def Heap.trims (h : Heap) (trimBlockStmt : Bool) (x : Option ℕ) : Bool :=
  trimBlockStmt && x.any fun x => (h.objects x).code == .fBlockStatement

/-! ## The order of the objects -/

/-- From the arguments `cs` of `p` on down, `vs` are the objects in their order, each before its
arguments; `ds` are the cells, also of those that are left out. -/
inductive Preorder (h : Heap) (trim : Bool) : ℕ → List ℕ → List Visit → List ℕ → Prop
  | nil (p : ℕ) : Preorder h trim p [] [] []
  | trim {p c : ℕ} {cs : List ℕ} {vs : List Visit} {ds : List ℕ}
      (hc : h.trims trim (h.arg c) = true) (hcs : Preorder h trim p cs vs ds) :
    Preorder h trim p (c :: cs) vs (c :: ds)
  | null {p c : ℕ} {cs : List ℕ} {vs : List Visit} {ds : List ℕ} (hc : h.arg c = none)
      (hcs : Preorder h trim p cs vs ds) :
    Preorder h trim p (c :: cs) (⟨some c, none, some p⟩ :: vs) (c :: ds)
  | object {p c x : ℕ} {cs : List ℕ} {vs ws : List Visit} {ds es : List ℕ} (hc : h.arg c = some x)
      (htrim : h.trims trim (some x) = false) (hx : Preorder h trim x (h.argsOf x) ws es)
      (hcs : Preorder h trim p cs vs ds) :
    Preorder h trim p (c :: cs) (⟨some c, some x, some p⟩ :: (ws ++ vs)) (c :: (es ++ ds))

/-- The change of the heap leaves the cells `ds` and the objects in them. -/
structure Keeps (ds : List ℕ) (h h' : Heap) : Prop where
  arg : ∀ c ∈ ds, h'.arg c = h.arg c
  object : ∀ c ∈ ds, ∀ x, h.arg c = some x → h'.objects x = h.objects x

variable {h h' : Heap} {trim : Bool} {p x c : ℕ} {cs ds es : List ℕ} {vs ws : List Visit}

theorem Keeps.mono (hk : Keeps ds h h') (hsub : es ⊆ ds) : Keeps es h h' :=
  ⟨fun c hc => hk.arg c (hsub hc), fun c hc => hk.object c (hsub hc)⟩

theorem Preorder.congr (hv : Preorder h trim p cs vs ds) (hk : Keeps ds h h') :
    Preorder h' trim p cs vs ds := by
  induction hv with
  | nil p => exact .nil p
  | @trim p c cs vs ds hc _ ih =>
    have harg := hk.arg c List.mem_cons_self
    refine .trim ?_ (ih (hk.mono (List.subset_cons_self _ _)))
    cases hx : h.arg c with
    | none => simp [hx, Heap.trims] at hc
    | some x =>
      have hobject := hk.object c List.mem_cons_self x hx
      simpa [harg, hx, Heap.trims, hobject] using hc
  | @null p c cs vs ds hc _ ih =>
    exact .null ((hk.arg c List.mem_cons_self).trans hc)
      (ih (hk.mono (List.subset_cons_self _ _)))
  | @object p c x cs vs ws ds es hc htrim _ _ ihx ihcs =>
    have hobject := hk.object c List.mem_cons_self x hc
    have hargs : h'.argsOf x = h.argsOf x := by rw [Heap.argsOf, Heap.argsOf, hobject]
    refine .object ((hk.arg c List.mem_cons_self).trans hc) ?_ (hargs.symm ▸ ihx (hk.mono ?_))
      (ihcs (hk.mono ?_))
    · simpa [Heap.trims, hobject] using htrim
    · exact fun d hd => List.mem_cons_of_mem _ (List.mem_append_left _ hd)
    · exact fun d hd => List.mem_cons_of_mem _ (List.mem_append_right _ hd)

theorem Preorder.cell_mem (hv : Preorder h trim p cs vs ds) {v : Visit} (hmem : v ∈ vs) :
    ∃ c ∈ ds, v.cell = some c := by
  induction hv with
  | nil => cases hmem
  | trim _ _ ih =>
    obtain ⟨c, hc, heq⟩ := ih hmem
    exact ⟨c, List.mem_cons_of_mem _ hc, heq⟩
  | @null p c cs vs ds _ _ ih =>
    obtain rfl | hmem := List.mem_cons.mp hmem
    · exact ⟨c, List.mem_cons_self, rfl⟩
    · obtain ⟨d, hd, heq⟩ := ih hmem
      exact ⟨d, List.mem_cons_of_mem _ hd, heq⟩
  | @object p c x cs vs ws ds es _ _ _ _ ihx ihcs =>
    obtain rfl | hmem := List.mem_cons.mp hmem
    · exact ⟨c, List.mem_cons_self, rfl⟩
    · obtain hmem | hmem := List.mem_append.mp hmem
      · obtain ⟨d, hd, heq⟩ := ihx hmem
        exact ⟨d, List.mem_cons_of_mem _ (List.mem_append_left _ hd), heq⟩
      · obtain ⟨d, hd, heq⟩ := ihcs hmem
        exact ⟨d, List.mem_cons_of_mem _ (List.mem_append_right _ hd), heq⟩

/-- A list of an object, with one argument that is a block, and of a null pointer. -/
def sample : Heap where
  objects
    | 0 => ⟨.other "LIST", [10, 11]⟩
    | 1 => ⟨.other "PLUS_EXPR", [12]⟩
    | 2 => ⟨.fBlockStatement, []⟩
    | _ => ⟨.other "VAR", []⟩
  arg
    | 10 => some 1
    | 12 => some 2
    | _ => none

/-! ## Top down -/

/-- `topdownXobjectIterator`; `currentArgs` are the cells from the one it is at to the last. -/
structure Topdown where
  trimBlockStmt : Bool
  currentXobject : Option ℕ
  currentArgs : List ℕ
  objStack : List ℕ
  argStack : List (List ℕ)

namespace Topdown

/-- The iterator of a pass after `init`. -/
def init (h : Heap) (trimBlockStmt : Bool) (x : Option ℕ) : Topdown :=
  ⟨trimBlockStmt, if h.trims trimBlockStmt x then none else x, [], [], []⟩

/-- The inner loop of `next`: the cells from the next argument that is not left out. -/
def nextArgs (h : Heap) (trimBlockStmt : Bool) : List ℕ → List ℕ
  | [] => []
  | c :: cs => if h.trims trimBlockStmt (h.arg c) then nextArgs h trimBlockStmt cs else c :: cs

/-- The outer loop of `next`; it returns none where the program would follow a null pointer. -/
def climb (h : Heap) (trimBlockStmt : Bool) : List ℕ → List ℕ → List (List ℕ) → Option Topdown
  | [], currentArgs, argStack => some ⟨trimBlockStmt, none, currentArgs, [], argStack⟩
  | x :: objStack, _ :: cs, argStack =>
    match nextArgs h trimBlockStmt cs with
    | c :: cs => some ⟨trimBlockStmt, h.arg c, c :: cs, x :: objStack, argStack⟩
    | [] =>
      match argStack with
      | currentArgs :: argStack => climb h trimBlockStmt objStack currentArgs argStack
      | [] => none
  | _ :: _, [], _ => none

def next (h : Heap) (it : Topdown) : Option Topdown :=
  match it.currentXobject.map fun x => (x, h.argsOf x) with
  | some (x, c :: cs) =>
    if h.trims it.trimBlockStmt (h.arg c) then
      climb h it.trimBlockStmt (x :: it.objStack) (c :: cs) (it.currentArgs :: it.argStack)
    else some { it with
      currentXobject := h.arg c
      currentArgs := c :: cs
      objStack := x :: it.objStack
      argStack := it.currentArgs :: it.argStack }
  | _ => climb h it.trimBlockStmt it.objStack it.currentArgs it.argStack

/-- `end`. -/
def atEnd (it : Topdown) : Bool := it.currentXobject.isNone && it.objStack.isEmpty

/-- `setXobject`, with a null pointer at the top. -/
def setXobject (h : Heap) (it : Topdown) (x : Option ℕ) : Option Heap :=
  match it.currentArgs with
  | [] => none
  | c :: _ => some (h.setArg c x)

def visit (it : Topdown) : Visit :=
  ⟨it.currentArgs.head?, it.currentXobject, it.objStack.head?⟩

def act (f : Heap → Topdown → Heap × Option (Option ℕ)) (h : Heap) (it : Topdown) : Option Heap :=
  match (f h it).2 with
  | none => some (f h it).1
  | some x => it.setXobject (f h it).1 x

/-- The loop of a pass, which at each object creates others and may set one. It returns the visits,
each with what has been set. -/
def walk (f : Heap → Topdown → Heap × Option (Option ℕ)) : ℕ → Heap → Topdown →
    Option (List (Visit × Option (Option ℕ)) × Heap)
  | 0, _, _ => none
  | n + 1, h, it =>
    if it.atEnd then some ([], h)
    else do
      let h' ← act f h it
      let it' ← it.next h'
      let (us, h'') ← walk f n h' it'
      return ((it.visit, (f h it).2) :: us, h'')

end Topdown

/-- The objects that a pass walks over, in the beginning. -/
def Heap.below (h : Heap) (x : ℕ) (ds : List ℕ) : Set ℕ :=
  {y | y = x ∨ ∃ c ∈ ds, h.arg c = some y}

/-- What a pass does to its cells and objects, apart from `setXobject`: nothing. It may create
others. -/
structure Creates (objs : Set ℕ) (ds : List ℕ) (h h' : Heap) : Prop where
  arg : ∀ c ∈ ds, h'.arg c = h.arg c
  object : ∀ y ∈ objs, h'.objects y = h.objects y

namespace Topdown

inductive Rest (h : Heap) (trim : Bool) :
    List ℕ → List ℕ → List (List ℕ) → List Visit → List ℕ → Prop
  | top : Rest h trim [] [] [] [] []
  | level {x c : ℕ} {cs objStack args ds es : List ℕ} {argStack : List (List ℕ)}
      {vs ws : List Visit} (hcs : Preorder h trim x cs vs ds)
      (hrest : Rest h trim objStack args argStack ws es) :
    Rest h trim (x :: objStack) (c :: cs) (args :: argStack) (vs ++ ws) (ds ++ es)

structure At (h : Heap) (it : Topdown) : Prop where
  notEnd : it.atEnd = false
  holds : ∀ c, it.currentArgs.head? = some c → h.arg c = it.currentXobject

/-- The iterator has still to visit `vs`. -/
structure Pending (h : Heap) (trim : Bool) (it : Topdown) (vs : List Visit) (ds : List ℕ) :
    Prop where
  trims : it.trimBlockStmt = trim
  split : ∃ ws rs es fs, vs = ws ++ rs ∧ ds = es ++ fs ∧
    (∀ x, it.currentXobject = some x → Preorder h trim x (h.argsOf x) ws es) ∧
    (it.currentXobject = none → ws = [] ∧ es = []) ∧
    Rest h trim it.objStack it.currentArgs it.argStack rs fs

/-- `next` gets to the first of `vs`. -/
def Reaches (h : Heap) (trim : Bool) (o : Option Topdown) (vs : List Visit) (ds : List ℕ) :
    Prop :=
  match vs with
  | [] => o = some ⟨trim, none, [], [], []⟩
  | v :: vs => ∃ it c es, o = some it ∧ it.visit = v ∧ it.currentArgs.head? = some c ∧
      (c :: es).Sublist ds ∧ At h it ∧ Pending h trim it vs es

variable {o : Option Topdown} {it : Topdown} {objStack args : List ℕ}
  {argStack : List (List ℕ)}

theorem Reaches.mono (hr : Reaches h trim o vs ds) (hsub : ds.Sublist es) :
    Reaches h trim o vs es := by
  cases vs with
  | nil => exact hr
  | cons v vs =>
    obtain ⟨it, c, es', ho, hv, hc, hes, hat, hp⟩ := hr
    exact ⟨it, c, es', ho, hv, hc, hes.trans hsub, hat, hp⟩

theorem climb_cons (x d : ℕ) (cs : List ℕ) :
    climb h trim (x :: objStack) (d :: cs) (args :: argStack) =
      match nextArgs h trim cs with
      | c :: cs => some ⟨trim, h.arg c, c :: cs, x :: objStack, args :: argStack⟩
      | [] => climb h trim objStack args argStack := rfl

/-- The loops of `next` get to what comes first in the rest of a list, or else after it. -/
theorem reaches_level (hcs : Preorder h trim x cs vs ds)
    (hrest : Rest h trim objStack args argStack ws es)
    (hr : Reaches h trim (climb h trim objStack args argStack) ws es) (d : ℕ) :
    Reaches h trim (climb h trim (x :: objStack) (d :: cs) (args :: argStack)) (vs ++ ws)
      (ds ++ es) := by
  induction hcs with
  | nil => exact hr
  | trim hc _ ih =>
    rw [climb_cons, nextArgs, if_pos hc, ← climb_cons]
    exact ih.mono (List.sublist_cons_self _ _)
  | @null _ c cs vs ds hc hcs _ =>
    have htrim : h.trims trim (h.arg c) = false := by simp [hc, Heap.trims]
    rw [climb_cons, nextArgs, htrim]
    refine ⟨_, c, ds ++ es, rfl, ?_, rfl, List.Sublist.refl _, ?_, ?_⟩
    · simp [visit, hc]
    · exact ⟨by simp [atEnd], by simp⟩
    · exact ⟨rfl, [], vs ++ ws, [], ds ++ es, rfl, rfl, by simp [hc], by simp, .level hcs hrest⟩
  | @object _ c y cs vs us ds fs hc htrim hy hcs _ _ =>
    rw [climb_cons, nextArgs, hc, htrim]
    refine ⟨_, c, fs ++ (ds ++ es), rfl, ?_, rfl, ?_, ?_, ?_⟩
    · simp [visit, hc]
    · simp
    · exact ⟨by simp [atEnd], by simp⟩
    · refine ⟨rfl, us, vs ++ ws, fs, ds ++ es, by simp, rfl, ?_, by simp [hc], .level hcs hrest⟩
      rintro x' hx'
      obtain rfl : y = x' := by simpa [hc] using hx'
      exact hy

theorem reaches_climb (hrest : Rest h trim objStack args argStack vs ds) :
    Reaches h trim (climb h trim objStack args argStack) vs ds := by
  induction hrest with
  | top => rfl
  | level hcs hrest ih => exact reaches_level hcs hrest ih _

theorem next_eq_climb (hx : it.currentXobject = some x) (d : ℕ) (hne : h.argsOf x ≠ []) :
    it.next h = climb h it.trimBlockStmt (x :: it.objStack) (d :: h.argsOf x)
      (it.currentArgs :: it.argStack) := by
  obtain ⟨c, cs, hargs⟩ := List.exists_cons_of_ne_nil hne
  rw [climb_cons, hargs, nextArgs]
  simp only [next, hx, Option.map_some, hargs]
  split_ifs with htrim
  · rw [climb_cons]
  · rfl

theorem Pending.next (hp : Pending h trim it vs ds) : Reaches h trim (it.next h) vs ds := by
  obtain ⟨ws, rs, es, fs, rfl, rfl, hobject, hnull, hrest⟩ := hp.split
  have hclimb := reaches_climb hrest
  cases hx : it.currentXobject with
  | none =>
    obtain ⟨rfl, rfl⟩ := hnull hx
    simpa [Topdown.next, hx, hp.trims] using hclimb
  | some x =>
    have hws := hobject x hx
    by_cases hargs : h.argsOf x = []
    · rw [hargs] at hws
      cases hws
      simpa [Topdown.next, hx, hargs, hp.trims] using hclimb
    · rw [next_eq_climb hx 0 hargs, hp.trims]
      exact reaches_level hws hrest hclimb 0

theorem Rest.congr (hrest : Rest h trim objStack args argStack vs ds) (hk : Keeps ds h h') :
    Rest h' trim objStack args argStack vs ds := by
  induction hrest with
  | top => exact .top
  | level hcs _ ih =>
    exact .level (hcs.congr (hk.mono (List.subset_append_left _ _)))
      (ih (hk.mono (List.subset_append_right _ _)))

theorem Rest.cell_mem (hrest : Rest h trim objStack args argStack vs ds) {v : Visit}
    (hmem : v ∈ vs) : ∃ c ∈ ds, v.cell = some c := by
  induction hrest with
  | top => cases hmem
  | level hcs _ ih =>
    obtain hmem | hmem := List.mem_append.mp hmem
    · obtain ⟨c, hc, heq⟩ := hcs.cell_mem hmem
      exact ⟨c, List.mem_append_left _ hc, heq⟩
    · obtain ⟨c, hc, heq⟩ := ih hmem
      exact ⟨c, List.mem_append_right _ hc, heq⟩

theorem Pending.congr (hp : Pending h trim it vs ds) (hk : Keeps ds h h')
    (hcurrent : ∀ x, it.currentXobject = some x → h'.objects x = h.objects x) :
    Pending h' trim it vs ds := by
  obtain ⟨htrim, ws, rs, es, fs, rfl, rfl, hobject, hnull, hrest⟩ := hp
  refine ⟨htrim, ws, rs, es, fs, rfl, rfl, fun x hx => ?_, hnull,
    hrest.congr (hk.mono (List.subset_append_right _ _))⟩
  have hargs : h'.argsOf x = h.argsOf x := by rw [Heap.argsOf, Heap.argsOf, hcurrent x hx]
  rw [hargs]
  exact (hobject x hx).congr (hk.mono (List.subset_append_left _ _))

theorem Pending.cell_mem (hp : Pending h trim it vs ds) {v : Visit} (hmem : v ∈ vs) :
    ∃ c ∈ ds, v.cell = some c := by
  obtain ⟨-, ws, rs, es, fs, rfl, rfl, hobject, hnull, hrest⟩ := hp
  obtain hmem | hmem := List.mem_append.mp hmem
  · cases hx : it.currentXobject with
    | none => simp [(hnull hx).1] at hmem
    | some x =>
      obtain ⟨c, hc, heq⟩ := (hobject x hx).cell_mem hmem
      exact ⟨c, List.mem_append_left _ hc, heq⟩
  · obtain ⟨c, hc, heq⟩ := hrest.cell_mem hmem
    exact ⟨c, List.mem_append_right _ hc, heq⟩

variable {f : Heap → Topdown → Heap × Option (Option ℕ)} {all : List ℕ} {objs : Set ℕ}

/-- The cell that the iterator is at has been set, and no other of the cells. -/
structure Acted (objs : Set ℕ) (all : List ℕ) (it : Topdown) (y : Option (Option ℕ))
    (h h' : Heap) : Prop where
  set : ∀ c, it.currentArgs.head? = some c → h'.arg c = y.getD it.currentXobject
  kept : ∀ c ∈ all, it.currentArgs.head? ≠ some c → h'.arg c = h.arg c
  object : ∀ y ∈ objs, h'.objects y = h.objects y

theorem At.act (hat : At h it) (hf : Creates objs all h (f h it).1)
    (htop : it.currentArgs = [] → (f h it).2 = none) (hall : it.currentArgs.head?.toList ⊆ all) :
    ∃ h', act f h it = some h' ∧ Acted objs all it (f h it).2 h h' := by
  cases hput : (f h it).2 with
  | none =>
    refine ⟨(f h it).1, by simp [Topdown.act, hput], fun c hc => ?_, fun c hc _ => hf.arg c hc,
      hf.object⟩
    exact (hf.arg c (hall (by simp [hc]))).trans (hat.holds c hc)
  | some y =>
    cases hargs : it.currentArgs with
    | nil => cases hput.symm.trans (htop hargs)
    | cons c cs =>
      refine ⟨(f h it).1.setArg c y, by simp [Topdown.act, hput, setXobject, hargs], ?_, ?_,
        hf.object⟩
      · rintro c' hc'
        obtain rfl : c = c' := by simpa [hargs] using hc'
        simp [Heap.setArg]
      · intro c' hc' hne
        have hne' : c' ≠ c := by
          rintro rfl
          exact hne (by rw [hargs]; rfl)
        simpa [Heap.setArg, hne'] using hf.arg c' hc'

theorem walk_end (n : ℕ) (hend : it.atEnd = true) : walk f (n + 1) h it = some ([], h) := by
  rw [walk, if_pos hend]

theorem walk_step {n : ℕ} {h'' : Heap} {it' : Topdown}
    {us : List (Visit × Option (Option ℕ))} (hend : it.atEnd = false)
    (hact : act f h it = some h') (hnext : it.next h' = some it')
    (hrun : walk f n h' it' = some (us, h'')) :
    walk f (n + 1) h it = some ((it.visit, (f h it).2) :: us, h'') := by
  simp [walk, hend, hact, hnext, hrun]

theorem Pending.act (hp : Pending h trim it vs ds) (hat : At h it)
    (hf : Creates objs all h (f h it).1) (htop : it.currentArgs = [] → (f h it).2 = none)
    (hnodup : (it.currentArgs.head?.toList ++ ds).Nodup)
    (hall : it.currentArgs.head?.toList ++ ds ⊆ all)
    (hcurrent : ∀ y, it.currentXobject = some y → y ∈ objs)
    (hobjs : ∀ c ∈ ds, ∀ y, h.arg c = some y → y ∈ objs) :
    ∃ h', Topdown.act f h it = some h' ∧ Acted objs all it (f h it).2 h h' ∧
      Keeps ds h h' ∧ Pending h' trim it vs ds := by
  obtain ⟨hcell, hsub⟩ := List.append_subset.mp hall
  obtain ⟨h', hact, hacted⟩ := hat.act hf htop hcell
  have hkeeps : Keeps ds h h' := by
    refine ⟨fun c hc => hacted.kept c (hsub hc) fun heq => ?_, fun c hc y hy =>
      hacted.object y (hobjs c hc y hy)⟩
    exact List.disjoint_of_nodup_append hnodup (by simp [heq]) hc
  exact ⟨h', hact, hacted, hkeeps, hp.congr hkeeps fun y hy => hacted.object y (hcurrent y hy)⟩

/-- From any place on, the loop visits what is pending, and what has been set stays. -/
theorem Pending.walk (hf : ∀ h it, Creates objs all h (f h it).1)
    (hp : Pending h trim it vs ds) (hat : At h it)
    (htop : it.currentArgs = [] → (f h it).2 = none)
    (hnodup : (it.currentArgs.head?.toList ++ ds).Nodup)
    (hall : it.currentArgs.head?.toList ++ ds ⊆ all)
    (hcurrent : ∀ y, it.currentXobject = some y → y ∈ objs)
    (hobjs : ∀ c ∈ ds, ∀ y, h.arg c = some y → y ∈ objs) :
    ∃ n us h', walk f n h it = some (us, h') ∧ us.map Prod.fst = it.visit :: vs ∧
      (∀ u ∈ us, ∀ c, u.1.cell = some c → h'.arg c = u.2.getD u.1.object) ∧
      ∀ c ∈ all, (∀ v ∈ it.visit :: vs, v.cell ≠ some c) → h'.arg c = h.arg c := by
  induction vs generalizing h it ds with
  | nil =>
    obtain ⟨h₁, hact, hacted, -, hp₁⟩ :=
      hp.act hat (hf h it) htop hnodup hall hcurrent hobjs
    refine ⟨2, [(it.visit, (f h it).2)], h₁, walk_step hat.notEnd hact hp₁.next (walk_end 0 rfl),
      rfl, ?_, ?_⟩
    · rintro u hu c hc
      obtain rfl := List.mem_singleton.mp hu
      exact hacted.set c hc
    · exact fun c hc hne => hacted.kept c hc (hne _ List.mem_cons_self)
  | cons v vs ih =>
    obtain ⟨h₁, hact, hacted, hkeeps, hp₁⟩ :=
      hp.act hat (hf h it) htop hnodup hall hcurrent hobjs
    obtain ⟨it₁, c, es, hnext, rfl, hc, hes, hat₁, hp₂⟩ := hp₁.next
    have hes' : (it₁.currentArgs.head?.toList ++ es).Sublist ds := by simpa [hc] using hes
    have hds : ds ⊆ all := (List.append_subset.mp hall).2
    have hobjs₁ : ∀ d ∈ c :: es, ∀ y, h₁.arg d = some y → y ∈ objs := fun d hd y hy =>
      hobjs d (hes.subset hd) y ((hkeeps.arg d (hes.subset hd)).symm.trans hy)
    obtain ⟨n, us, h₂, hrun, hvisits, hset, hkept⟩ := ih hp₂ hat₁ (fun hnil => by simp [hnil] at hc)
      ((hes'.trans (List.sublist_append_right _ _)).nodup hnodup)
      (List.Subset.trans hes'.subset hds)
      (fun y hy => hobjs₁ c List.mem_cons_self y ((hat₁.holds c hc).trans hy))
      (fun d hd => hobjs₁ d (List.mem_cons_of_mem _ hd))
    refine ⟨n + 1, (it.visit, (f h it).2) :: us, h₂, walk_step hat.notEnd hact hnext hrun, ?_, ?_,
      ?_⟩
    · rw [List.map_cons, hvisits]
    · intro u hu c' hc'
      obtain rfl | hu := List.mem_cons.mp hu
      · have hcell : c' ∈ it.currentArgs.head?.toList := by simpa [visit] using hc'
        refine (hkept c' (hall (List.mem_append_left _ hcell)) fun v hv heq => ?_).trans
          (hacted.set c' hc')
        obtain ⟨d, hd, hcell'⟩ := hp.cell_mem hv
        obtain rfl : d = c' := Option.some.inj (hcell'.symm.trans heq)
        exact List.disjoint_of_nodup_append hnodup hcell hd
      · exact hset u hu c' hc'
    · intro c' hc' hne
      exact (hkept c' hc' fun v hv => hne v (List.mem_cons_of_mem _ hv)).trans
        (hacted.kept c' hc' (hne _ List.mem_cons_self))

/-- A loop with the iterator visits the object and all that is below it once, each object before
its arguments, with the arguments in their order; what the loop sets on the way neither adds a
visit nor takes one away, and in the end each cell holds what has been set in it. -/
theorem visits_preorder (hx : h.trims trim (some x) = false)
    (hv : Preorder h trim x (h.argsOf x) vs ds) (hnodup : ds.Nodup)
    (hf : ∀ h' it, Creates (h.below x ds) ds h' (f h' it).1)
    (htop : (f h (init h trim (some x))).2 = none) :
    ∃ n us h', walk f n h (init h trim (some x)) = some (us, h') ∧
      us.map Prod.fst = ⟨none, some x, none⟩ :: vs ∧
      (∀ u ∈ us, ∀ c, u.1.cell = some c → h'.arg c = u.2.getD u.1.object) ∧
      ∀ c ∈ ds, (∀ v ∈ vs, v.cell ≠ some c) → h'.arg c = h.arg c := by
  have hinit : init h trim (some x) = ⟨trim, some x, [], [], []⟩ := by simp [init, hx]
  have hp : Pending h trim (init h trim (some x)) vs ds := by
    rw [hinit]
    refine ⟨rfl, vs, [], ds, [], by simp, by simp, ?_, by simp, .top⟩
    intro y hy
    obtain rfl : x = y := Option.some.inj hy
    exact hv
  have hat : At h (init h trim (some x)) := by
    rw [hinit]
    exact ⟨rfl, by simp⟩
  have hcurrent : ∀ y, (init h trim (some x)).currentXobject = some y → y ∈ h.below x ds := by
    rw [hinit]
    exact fun y hy => .inl (Option.some.inj hy).symm
  obtain ⟨n, us, h', hrun, hvisits, hset, hkept⟩ := hp.walk hf hat (fun _ => htop)
    (by simpa [hinit]) (by simp [hinit]) hcurrent fun c hc y hy => .inr ⟨c, hc, hy⟩
  refine ⟨n, us, h', hrun, ?_, hset, fun c hc hne => hkept c hc fun v hv => ?_⟩
  · rw [hvisits, hinit]
    rfl
  · obtain rfl | hv := List.mem_cons.mp hv
    · simp [hinit, visit]
    · exact hne v hv

/-- The pass puts a new object, which has the old one as its argument, in the place of object 1. -/
def wrap (h : Heap) (it : Topdown) : Heap × Option (Option ℕ) :=
  if it.currentXobject = some 1 then
    (⟨Function.update h.objects 5 ⟨.other "UNARY_MINUS_EXPR", [20]⟩,
      Function.update h.arg 20 (some 1)⟩, some (some 5))
  else (h, none)

theorem visits_preorder_wrap : ∃ n us h', walk wrap n sample (init sample true (some 0)) =
    some (us, h') ∧
    us.map Prod.fst = [⟨none, some 0, none⟩, ⟨some 10, some 1, some 0⟩, ⟨some 11, none, some 0⟩] ∧
    (∀ u ∈ us, ∀ c, u.1.cell = some c → h'.arg c = u.2.getD u.1.object) ∧
    ∀ c ∈ [10, 12, 11], (∀ v ∈ [(⟨some 10, some 1, some 0⟩ : Visit), ⟨some 11, none, some 0⟩],
      v.cell ≠ some c) → h'.arg c = sample.arg c := by
  have hv : Preorder sample true 0 (sample.argsOf 0)
      [⟨some 10, some 1, some 0⟩, ⟨some 11, none, some 0⟩] [10, 12, 11] := by
    have h1 : Preorder sample true 1 (sample.argsOf 1) [] [12] := .trim rfl (.nil 1)
    exact .object rfl rfl h1 (.null rfl (.nil 0))
  have hobjs : ∀ y ∈ sample.below 0 [10, 12, 11], y ≠ 5 := by
    rintro y (rfl | ⟨c, hc, hy⟩)
    · decide
    · obtain rfl | rfl | rfl : c = 10 ∨ c = 12 ∨ c = 11 := by simpa using hc
      all_goals
        rintro rfl
        cases hy
  refine visits_preorder rfl hv (by decide) (fun h' it => ?_) rfl
  rw [wrap]
  split_ifs
  · refine ⟨fun c hc => ?_, fun y hy => ?_⟩
    · have hne : c ≠ 20 := by
        rintro rfl
        simp at hc
      exact Function.update_of_ne hne _ _
    · exact Function.update_of_ne (hobjs y hy) _ _
  · exact ⟨fun _ _ => rfl, fun _ _ => rfl⟩

end Topdown

/-! ## Bottom up -/

/-- `bottomupXobjectIterator`; `argStack` holds, for each object of the other stack, its arguments
before the one that the iterator is at, a null pointer, and its own cell. -/
structure Bottomup where
  topXobject : Option ℕ
  currentXobject : Option ℕ
  currentArgs : Option ℕ
  objStack : List ℕ
  argStack : List (Option ℕ)

namespace Bottomup

def pushArgs : List ℕ → Option ℕ → List (Option ℕ) → Option ℕ × List (Option ℕ)
  | [], currentArgs, argStack => (currentArgs, argStack)
  | c :: cs, currentArgs, argStack => pushArgs cs (some c) (currentArgs :: argStack)

/-- The loop of `init` and `next` that goes down at the last argument, at most `n` times. -/
def descend (h : Heap) : ℕ → Bottomup → Option Bottomup
  | 0, _ => none
  | n + 1, it =>
    match it.currentXobject.map fun x => (x, h.argsOf x) with
    | some (x, c :: cs) =>
      let (currentArgs, argStack) := pushArgs (c :: cs) none (it.currentArgs :: it.argStack)
      descend h n { it with
        currentXobject := currentArgs.bind h.arg
        currentArgs := currentArgs
        objStack := x :: it.objStack
        argStack := argStack }
    | _ => some it

def init (h : Heap) (n : ℕ) (x : Option ℕ) : Option Bottomup :=
  descend h n ⟨x, x, none, [], []⟩

/-- `next`; it returns none where the program would pop an empty stack. -/
def next (h : Heap) (n : ℕ) (it : Bottomup) : Option Bottomup :=
  match it.objStack with
  | [] => some { it with currentXobject := none }
  | x :: objStack =>
    match it.argStack with
    | [] => none
    | none :: [] => none
    | none :: currentArgs :: argStack => some { it with
        currentXobject := some x
        currentArgs := currentArgs
        objStack := objStack
        argStack := argStack }
    | some c :: argStack => descend h n { it with
        currentXobject := h.arg c
        currentArgs := some c
        argStack := argStack }

/-- `end`. -/
def atEnd (it : Bottomup) : Bool := it.currentXobject.isNone && it.objStack.isEmpty

def setXobject (h : Heap) (it : Bottomup) (x : Option ℕ) : Heap × Bottomup :=
  match it.currentArgs with
  | none => (h, { it with currentXobject := x, topXobject := x })
  | some c => (h.setArg c x, { it with currentXobject := x })

def visit (it : Bottomup) : Visit :=
  ⟨it.currentArgs, it.currentXobject, it.objStack.head?⟩

def act (f : Heap → Bottomup → Heap × Option (Option ℕ)) (h : Heap) (it : Bottomup) :
    Heap × Bottomup :=
  match (f h it).2 with
  | none => ((f h it).1, it)
  | some x => it.setXobject (f h it).1 x

/-- The loop of a pass; it returns the iterator, too, which has the object at the top. -/
def walk (f : Heap → Bottomup → Heap × Option (Option ℕ)) (d : ℕ) : ℕ → Heap → Bottomup →
    Option (List (Visit × Option (Option ℕ)) × Heap × Bottomup)
  | 0, _, _ => none
  | n + 1, h, it =>
    if it.atEnd then some ([], h, it)
    else do
      let it' ← (act f h it).2.next (act f h it).1 d
      let (us, h'', it'') ← walk f d n (act f h it).1 it'
      return ((it.visit, (f h it).2) :: us, h'', it'')

/-- What is in a cell, or at the top. -/
def placed (h : Heap) (top : Option ℕ) : Option ℕ → Option ℕ
  | none => top
  | some c => h.arg c

/-- What is still to be visited: of each object of the stack the arguments `cs`, from the last to
the first, and then the object in its cell `a`. -/
inductive Rest (h : Heap) (top : Option ℕ) : List ℕ → List (Option ℕ) → List Visit → Prop
  | top : Rest h top [] [] []
  | level {p : ℕ} {a : Option ℕ} {cs objStack ds : List ℕ} {argStack : List (Option ℕ)}
      {vs ws : List Visit} (hcs : Preorder h false p cs vs ds) (ha : placed h top a = some p)
      (hrest : Rest h top objStack argStack ws) :
    Rest h top (p :: objStack) (cs.reverse.map some ++ none :: a :: argStack)
      (vs.reverse ++ ⟨a, some p, objStack.head?⟩ :: ws)

structure At (h : Heap) (it : Bottomup) : Prop where
  notEnd : it.atEnd = false
  placed : placed h it.topXobject it.currentArgs = it.currentXobject

/-- The iterator is at the first of `vs`, and the others are still to be visited. -/
def Reaches (h : Heap) (top : Option ℕ) (o : Option Bottomup) (vs : List Visit) : Prop :=
  ∃ it ws, o = some it ∧ it.topXobject = top ∧ vs = it.visit :: ws ∧ At h it ∧
    Rest h top it.objStack it.argStack ws

theorem pushArgs_concat (cs : List ℕ) (c : ℕ) (a : Option ℕ) (argStack : List (Option ℕ)) :
    pushArgs (cs ++ [c]) a argStack = (some c, cs.reverse.map some ++ a :: argStack) := by
  induction cs generalizing a argStack with
  | nil => rfl
  | cons d cs ih =>
    rw [List.cons_append, pushArgs, ih]
    simp

end Bottomup

theorem Preorder.split {c : ℕ} (hv : Preorder h trim p (cs ++ [c]) vs ds) :
    ∃ vs₁ vs₂ ds₁ ds₂, vs = vs₁ ++ vs₂ ∧ Preorder h trim p cs vs₁ ds₁ ∧
      Preorder h trim p [c] vs₂ ds₂ := by
  induction cs generalizing vs ds with
  | nil => exact ⟨[], vs, [], ds, rfl, .nil p, hv⟩
  | cons d cs ih =>
    cases hv with
    | trim hc hcs =>
      obtain ⟨vs₁, vs₂, ds₁, ds₂, rfl, h₁, h₂⟩ := ih hcs
      exact ⟨vs₁, vs₂, d :: ds₁, ds₂, rfl, .trim hc h₁, h₂⟩
    | null hc hcs =>
      obtain ⟨vs₁, vs₂, ds₁, ds₂, rfl, h₁, h₂⟩ := ih hcs
      exact ⟨_ :: vs₁, vs₂, d :: ds₁, ds₂, rfl, .null hc h₁, h₂⟩
    | @object _ _ x _ _ us _ fs hc htrim hx hcs =>
      obtain ⟨vs₁, vs₂, ds₁, ds₂, rfl, h₁, h₂⟩ := ih hcs
      exact ⟨_ :: (us ++ vs₁), vs₂, d :: (fs ++ ds₁), ds₂, by simp, .object hc htrim hx h₁, h₂⟩

theorem Preorder.cells (hv : Preorder h false p cs vs ds) : vs.map Visit.cell = ds.map some := by
  generalize htrim : false = trim at hv
  induction hv with
  | nil => rfl
  | trim hc => simp [← htrim, Heap.trims] at hc
  | null _ _ ih => simp [ih]
  | object _ _ _ _ ihx ihcs => simp [ihx, ihcs]

namespace Bottomup

variable {it : Bottomup} {objStack : List ℕ} {argStack : List (Option ℕ)} {a t : Option ℕ}

/-- From the last argument, the iterator gets to what is first in the order. -/
theorem reaches_cell {c n : ℕ} (hv : Preorder h false p [c] ws es)
    (hp : objStack.head? = some p) (hrest : Rest h t objStack argStack vs) (hn : ws.length ≤ n)
    (hdescend : ∀ x us fs, h.arg c = some x → Preorder h false x (h.argsOf x) us fs →
      us.length < n → Reaches h t (descend h n ⟨t, some x, some c, objStack, argStack⟩)
        (us.reverse ++ ⟨some c, some x, objStack.head?⟩ :: vs)) :
    Reaches h t (descend h n ⟨t, h.arg c, some c, objStack, argStack⟩) (ws.reverse ++ vs) := by
  cases hv with
  | trim hc _ => simp [Heap.trims] at hc
  | null hc hnil =>
    cases hnil
    cases n with
    | zero => cases hn
    | succ n =>
      refine ⟨⟨t, h.arg c, some c, objStack, argStack⟩, vs, by simp [descend, hc], rfl, ?_, ?_,
        hrest⟩
      · simp [visit, hc, hp]
      · refine ⟨?_, rfl⟩
        cases objStack with
        | nil => cases hp
        | cons q objStack => simp [atEnd]
  | @object _ _ y _ _ us _ fs hc htrim hy hnil =>
    cases hnil
    have hreach := hdescend y us fs hc hy (Nat.lt_of_succ_le (by simpa using hn))
    rw [hc]
    simpa [hp] using hreach

theorem reaches_descend (hv : Preorder h false x (h.argsOf x) ws es)
    (ha : placed h t a = some x) (hrest : Rest h t objStack argStack vs) {n : ℕ}
    (hn : ws.length < n) :
    Reaches h t (descend h n ⟨t, some x, a, objStack, argStack⟩)
      (ws.reverse ++ ⟨a, some x, objStack.head?⟩ :: vs) := by
  induction n generalizing x a ws es objStack argStack vs with
  | zero => cases hn
  | succ n ih =>
    obtain hargs | ⟨cs, c, hargs⟩ := List.eq_nil_or_concat' (h.argsOf x)
    · rw [hargs] at hv
      cases hv
      exact ⟨⟨t, some x, a, objStack, argStack⟩, vs, by simp [descend, hargs], rfl, rfl,
        ⟨by simp [atEnd], ha⟩, hrest⟩
    · rw [hargs] at hv
      obtain ⟨vs₁, vs₂, ds₁, ds₂, rfl, h₁, h₂⟩ := hv.split
      have hdescend : descend h (n + 1) ⟨t, some x, a, objStack, argStack⟩ =
          descend h n ⟨t, h.arg c, some c, x :: objStack,
            cs.reverse.map some ++ none :: a :: argStack⟩ := by
        obtain ⟨d, ds, hcons⟩ : ∃ d ds, cs ++ [c] = d :: ds := by
          cases cs <;> simp
        have hpush := pushArgs_concat cs c none (a :: argStack)
        simp only [descend, Option.map_some, hargs]
        rw [hcons] at hpush ⊢
        simp only [hpush, Option.bind_some]
      have hlen : vs₂.length ≤ n := by
        rw [List.length_append] at hn
        omega
      have hrest' := Rest.level h₁ ha hrest
      have hreach := reaches_cell h₂ rfl hrest' hlen fun y us fs hy hv hlt =>
        ih (a := some c) hv hy hrest' hlt
      rw [hdescend]
      simpa using hreach

theorem Rest.congr {t' : Option ℕ} (hrest : Rest h t objStack argStack vs)
    (hk : Keeps (vs.filterMap Visit.cell) h h') (ht : ∀ v ∈ vs, v.cell = none → t' = t) :
    Rest h' t' objStack argStack vs := by
  induction hrest with
  | top => exact .top
  | @level p a cs objStack ds argStack vs ws hcs ha _ ih =>
    have hds := hcs.cells
    refine .level (hcs.congr (hk.mono fun d hd => ?_)) ?_ (ih (hk.mono fun d hd => ?_) fun v hv =>
      ht v (List.mem_append_right _ (List.mem_cons_of_mem _ hv)))
    · obtain ⟨v, hv, hcell⟩ := List.mem_map.mp (hds ▸ List.mem_map_of_mem hd)
      exact List.mem_filterMap.mpr ⟨v, List.mem_append_left _ (List.mem_reverse.mpr hv), hcell⟩
    · cases a with
      | none => exact (ht _ (List.mem_append_right _ List.mem_cons_self) rfl).trans ha
      | some c => exact (hk.arg c (by simp)).trans ha
    · rw [List.filterMap_append, List.filterMap_cons]
      refine List.mem_append_right _ ?_
      cases a with
      | none => exact hd
      | some c => exact List.mem_cons_of_mem _ hd

theorem Rest.objStack_nil (hrest : Rest h t objStack argStack []) : objStack = [] := by
  generalize hvs : ([] : List Visit) = vs at hrest
  cases hrest with
  | top => rfl
  | level => simp at hvs

theorem Rest.next (hrest : Rest h it.topXobject it.objStack it.argStack vs) (hne : vs ≠ [])
    {n : ℕ} (hn : vs.length < n) : Reaches h it.topXobject (it.next h n) vs := by
  obtain ⟨t, x, b, objStack, argStack⟩ := it
  cases hrest with
  | top => exact absurd rfl hne
  | @level p a cs objStack ds argStack vs ws hcs ha hrest =>
    obtain rfl | ⟨cs, c, rfl⟩ := List.eq_nil_or_concat' cs
    · cases hcs
      exact ⟨⟨t, some p, a, objStack, argStack⟩, ws, rfl, rfl, rfl, ⟨by simp [atEnd], ha⟩, hrest⟩
    · obtain ⟨vs₁, vs₂, ds₁, ds₂, rfl, h₁, h₂⟩ := hcs.split
      have hlen : vs₂.length ≤ n := by
        simp only [List.length_append, List.length_reverse] at hn
        omega
      have hrest' := Rest.level h₁ ha hrest
      have hreach := reaches_cell h₂ rfl hrest' hlen fun y us fs hy hv hlt =>
        reaches_descend (a := some c) hv hy hrest' hlt
      have hnext : Bottomup.next h n ⟨t, x, b, p :: objStack,
          (cs ++ [c]).reverse.map some ++ none :: a :: argStack⟩ =
          descend h n ⟨t, h.arg c, some c, p :: objStack,
            cs.reverse.map some ++ none :: a :: argStack⟩ := by
        simp [Bottomup.next]
      rw [← hnext] at hreach
      simpa using hreach

variable {f : Heap → Bottomup → Heap × Option (Option ℕ)} {all : List ℕ} {objs : Set ℕ}

structure Acted (objs : Set ℕ) (all : List ℕ) (y : Option (Option ℕ)) (h h' : Heap)
    (it it' : Bottomup) : Prop where
  set : placed h' it'.topXobject it.currentArgs = y.getD it.currentXobject
  kept : ∀ a, (∀ c, a = some c → c ∈ all) → it.currentArgs ≠ a →
    placed h' it'.topXobject a = placed h it.topXobject a
  object : ∀ y ∈ objs, h'.objects y = h.objects y
  objStack : it'.objStack = it.objStack
  argStack : it'.argStack = it.argStack

theorem At.act (hat : At h it) (hf : Creates objs all h (f h it).1)
    (hall : ∀ c, it.currentArgs = some c → c ∈ all) :
    Acted objs all (f h it).2 h (act f h it).1 it (act f h it).2 := by
  have hkept : ∀ a, (∀ c, a = some c → c ∈ all) →
      Bottomup.placed (f h it).1 it.topXobject a = Bottomup.placed h it.topXobject a := by
    intro a ha
    cases a with
    | none => rfl
    | some c => exact hf.arg c (ha c rfl)
  cases hput : (f h it).2 with
  | none =>
    rw [Bottomup.act, hput]
    exact ⟨(hkept _ hall).trans hat.placed, fun a ha _ => hkept a ha, hf.object, rfl, rfl⟩
  | some y =>
    rw [Bottomup.act, hput]
    cases hargs : it.currentArgs with
    | none =>
      simp only [setXobject, hargs]
      refine ⟨by rw [hargs]; rfl, fun a ha hne => ?_, hf.object, rfl, rfl⟩
      cases a with
      | none => exact absurd hargs hne
      | some c => exact hf.arg c (ha c rfl)
    | some c =>
      simp only [setXobject, hargs]
      refine ⟨?_, fun a ha hne => ?_, hf.object, rfl, rfl⟩
      · rw [hargs]
        simp [Bottomup.placed, Heap.setArg]
      · cases a with
        | none => rfl
        | some d =>
          have hdc : d ≠ c := by
            rintro rfl
            exact hne hargs
          simpa [Bottomup.placed, Heap.setArg, hdc] using hf.arg d (ha d rfl)

theorem walk_end (d n : ℕ) (hend : it.atEnd = true) :
    walk f d (n + 1) h it = some ([], h, it) := by
  rw [walk, if_pos hend]

theorem walk_step {d n : ℕ} {h'' : Heap} {it' it'' : Bottomup}
    {us : List (Visit × Option (Option ℕ))} (hend : it.atEnd = false)
    (hnext : (act f h it).2.next (act f h it).1 d = some it')
    (hrun : walk f d n (act f h it).1 it' = some (us, h'', it'')) :
    walk f d (n + 1) h it = some ((it.visit, (f h it).2) :: us, h'', it'') := by
  simp [walk, hend, hnext, hrun]

/-- From any place on, the loop visits what is pending, and what has been set stays. -/
theorem Rest.walk (hf : ∀ h it, Creates objs all h (f h it).1)
    (hrest : Rest h it.topXobject it.objStack it.argStack vs) (hat : At h it)
    (hnodup : ((it.visit :: vs).map Visit.cell).Nodup)
    (hall : ∀ v ∈ it.visit :: vs, ∀ c, v.cell = some c → c ∈ all)
    (hobjs : ∀ v ∈ vs, ∀ c, v.cell = some c → ∀ y, h.arg c = some y → y ∈ objs) {d : ℕ}
    (hd : vs.length < d) :
    ∃ n us h' it', walk f d n h it = some (us, h', it') ∧ us.map Prod.fst = it.visit :: vs ∧
      (∀ u ∈ us, placed h' it'.topXobject u.1.cell = u.2.getD u.1.object) ∧
      ∀ a, (∀ c, a = some c → c ∈ all) → (∀ v ∈ it.visit :: vs, v.cell ≠ a) →
        placed h' it'.topXobject a = placed h it.topXobject a := by
  induction vs generalizing h it with
  | nil =>
    have hacted := hat.act (hf h it) (hall it.visit List.mem_cons_self)
    have hnil : (act f h it).2.objStack = [] := hacted.objStack.trans hrest.objStack_nil
    refine ⟨2, [(it.visit, (f h it).2)], (act f h it).1,
      { (act f h it).2 with currentXobject := none }, ?_, rfl, ?_, ?_⟩
    · refine walk_step hat.notEnd ?_ (walk_end d 0 ?_)
      · simp [Bottomup.next, hnil]
      · simp [atEnd, hnil]
    · rintro u hu
      obtain rfl := List.mem_singleton.mp hu
      exact hacted.set
    · exact fun a ha hne => hacted.kept a ha (hne _ List.mem_cons_self)
  | cons v vs ih =>
    have hacted := hat.act (hf h it) (hall it.visit List.mem_cons_self)
    rw [List.map_cons, List.nodup_cons] at hnodup
    have hne : ∀ w ∈ v :: vs, w.cell ≠ it.currentArgs := fun w hw heq =>
      hnodup.1 (List.mem_map.mpr ⟨w, hw, heq⟩)
    have hkeeps : Keeps ((v :: vs).filterMap Visit.cell) h (act f h it).1 := by
      have hmem : ∀ c ∈ (v :: vs).filterMap Visit.cell, c ∈ all ∧ it.currentArgs ≠ some c := by
        intro c hc
        obtain ⟨w, hw, hcell⟩ := List.mem_filterMap.mp hc
        exact ⟨hall w (List.mem_cons_of_mem _ hw) c hcell, fun heq =>
          hne w hw (hcell.trans heq.symm)⟩
      refine ⟨fun c hc => ?_, fun c hc y hy => ?_⟩
      · refine hacted.kept (some c) (fun d hd => ?_) (hmem c hc).2
        exact Option.some.inj hd ▸ (hmem c hc).1
      · obtain ⟨w, hw, hcell⟩ := List.mem_filterMap.mp hc
        exact hacted.object y (hobjs w hw c hcell y hy)
    have hrest₁ : Rest (act f h it).1 (act f h it).2.topXobject (act f h it).2.objStack
        (act f h it).2.argStack (v :: vs) := by
      rw [hacted.objStack, hacted.argStack]
      refine hrest.congr hkeeps fun w hw hcell => ?_
      exact hacted.kept none (by simp) fun heq => hne w hw (hcell.trans heq.symm)
    obtain ⟨it₁, ws, hnext, htop, heq, hat₁, hrest₂⟩ := hrest₁.next (by simp) hd
    obtain ⟨rfl, rfl⟩ := List.cons.inj heq
    rw [← htop] at hrest₂
    have hobjs₁ : ∀ w ∈ vs, ∀ c, w.cell = some c → ∀ y, (act f h it).1.arg c = some y →
        y ∈ objs := by
      intro w hw c hcell y hy
      have hw' : w ∈ it₁.visit :: vs := List.mem_cons_of_mem _ hw
      have harg := hkeeps.arg c (List.mem_filterMap.mpr ⟨w, hw', hcell⟩)
      exact hobjs w hw' c hcell y (harg.symm.trans hy)
    obtain ⟨n, us, h₂, it₂, hrun, hvisits, hset, hkept⟩ := ih hrest₂ hat₁ hnodup.2
      (fun w hw => hall w (List.mem_cons_of_mem _ hw)) hobjs₁ (Nat.lt_of_succ_lt hd)
    rw [htop] at hkept
    refine ⟨n + 1, (it.visit, (f h it).2) :: us, h₂, it₂, walk_step hat.notEnd hnext hrun, ?_, ?_,
      ?_⟩
    · rw [List.map_cons, hvisits]
    · intro u hu
      obtain rfl | hu := List.mem_cons.mp hu
      · exact (hkept it.currentArgs (hall it.visit List.mem_cons_self) hne).trans hacted.set
      · exact hset u hu
    · intro a ha hnot
      exact (hkept a ha fun w hw => hnot w (List.mem_cons_of_mem _ hw)).trans
        (hacted.kept a ha (hnot _ List.mem_cons_self))

/-- A loop with the iterator visits what a top-down loop visits, in the opposite order; what it
sets on the way neither adds a visit nor takes one away, and in the end each cell, and the top,
hold what has been set there. -/
theorem visits_reversed (hv : Preorder h false x (h.argsOf x) vs ds) (hnodup : ds.Nodup)
    (hf : ∀ h' it, Creates (h.below x ds) ds h' (f h' it).1) :
    ∃ d n it us h' it', init h d (some x) = some it ∧ walk f d n h it = some (us, h', it') ∧
      us.map Prod.fst = (⟨none, some x, none⟩ :: vs).reverse ∧
      ∀ u ∈ us, placed h' it'.topXobject u.1.cell = u.2.getD u.1.object := by
  have hreach := reaches_descend (t := some x) (a := none) hv rfl .top
    (Nat.lt_add_one vs.length)
  obtain ⟨it, ws, hinit, htop, hvisits, hat, hrest⟩ := hreach
  have hvisits' : (⟨none, some x, none⟩ :: vs).reverse = it.visit :: ws := by
    simpa using hvisits
  have hcells : (it.visit :: ws).map Visit.cell = (none :: ds.map some).reverse := by
    rw [← hvisits', List.map_reverse, List.map_cons, hv.cells]
  have hall : ∀ v ∈ it.visit :: ws, ∀ c, v.cell = some c → c ∈ ds := by
    intro v hv c hc
    have hmem : some c ∈ (none :: ds.map some).reverse :=
      hcells ▸ List.mem_map.mpr ⟨v, hv, hc⟩
    simpa using hmem
  have hnodup' : ((it.visit :: ws).map Visit.cell).Nodup := by
    rw [hcells, List.nodup_reverse, List.nodup_cons]
    exact ⟨by simp, hnodup.map fun _ _ => Option.some.inj⟩
  have hrest' : Rest h it.topXobject it.objStack it.argStack ws := htop.symm ▸ hrest
  have hlen : ws.length < vs.length + 1 := by
    have := congrArg List.length hvisits'
    simp only [List.length_reverse, List.length_cons] at this
    omega
  obtain ⟨n, us, h', it', hrun, hmap, hset, -⟩ := hrest'.walk hf hat hnodup' hall
    (fun v hv c hc y hy => .inr ⟨c, hall v (List.mem_cons_of_mem _ hv) c hc, hy⟩) hlen
  exact ⟨vs.length + 1, n, it, us, h', it', hinit, hrun, hmap.trans hvisits'.symm, hset⟩

/-- The pass puts object 3 in the place of a null pointer and of object 0. -/
def fill (h : Heap) (it : Bottomup) : Heap × Option (Option ℕ) :=
  (h, if it.currentXobject = none ∨ it.currentXobject = some 0 then some (some 3) else none)

theorem visits_reversed_fill : ∃ d n it us h' it', init sample d (some 0) = some it ∧
    walk fill d n sample it = some (us, h', it') ∧
    us.map Prod.fst = [⟨none, some 0, none⟩, ⟨some 10, some 1, some 0⟩, ⟨some 12, some 2, some 1⟩,
      ⟨some 11, none, some 0⟩].reverse ∧
    ∀ u ∈ us, placed h' it'.topXobject u.1.cell = u.2.getD u.1.object := by
  have h2 : Preorder sample false 2 (sample.argsOf 2) [] [] := .nil 2
  have h1 : Preorder sample false 1 (sample.argsOf 1) [⟨some 12, some 2, some 1⟩] [12] :=
    .object rfl rfl h2 (.nil 1)
  have hv : Preorder sample false 0 (sample.argsOf 0) [⟨some 10, some 1, some 0⟩,
      ⟨some 12, some 2, some 1⟩, ⟨some 11, none, some 0⟩] [10, 12, 11] :=
    .object rfl rfl h1 (.null rfl (.nil 0))
  exact visits_reversed hv (by decide) fun h' it => ⟨fun _ _ => rfl, fun _ _ => rfl⟩

end Bottomup

end OmniCompiler.Exc.XobjectIterator
