import Mathlib.Tactic

/-!
# Aligning two lists and running through products of lists

Two lists whose selected entries agree are matched entry by entry, the remaining entries
being left alone on their side. Products of lists are listed with the last or the first
factor varying fastest.
-/
namespace OmniCompiler.Alignment

variable {α β γ δ : Type*}

inductive Item (α β : Type*) where
  | left (a : α)
  | right (b : β)
  | both (a : α) (b : β)

namespace Item

def left? : Item α β → Option α
  | .left a => some a
  | .right _ => none
  | .both a _ => some a

def right? : Item α β → Option β
  | .left _ => none
  | .right b => some b
  | .both _ b => some b

def swap : Item α β → Item β α
  | .left a => .right a
  | .right b => .left b
  | .both a b => .both b a

def both? : Item α β → Option (α × β)
  | .left _ => none
  | .right _ => none
  | .both a b => some (a, b)

end Item

def lefts (items : List (Item α β)) : List α := items.filterMap Item.left?

def rights (items : List (Item α β)) : List β := items.filterMap Item.right?

def boths (items : List (Item α β)) : List (α × β) := items.filterMap Item.both?

section

variable (items : List (Item α β)) (a : α) (b : β)

@[simp] theorem lefts_cons_left : lefts (.left a :: items) = a :: lefts items := rfl

@[simp] theorem lefts_cons_right : lefts (.right b :: items) = lefts items := rfl

@[simp] theorem lefts_cons_both : lefts (.both a b :: items) = a :: lefts items := rfl

@[simp] theorem rights_cons_left : rights (.left a :: items) = rights items := rfl

@[simp] theorem rights_cons_right : rights (.right b :: items) = b :: rights items := rfl

@[simp] theorem rights_cons_both : rights (.both a b :: items) = b :: rights items := rfl

@[simp] theorem boths_cons_left : boths (.left a :: items) = boths items := rfl

@[simp] theorem boths_cons_right : boths (.right b :: items) = boths items := rfl

@[simp] theorem boths_cons_both : boths (.both a b :: items) = (a, b) :: boths items := rfl

end

theorem lefts_swap (items : List (Item α β)) : lefts (items.map Item.swap) = rights items := by
  rw [lefts, rights, List.filterMap_map]
  refine List.filterMap_congr fun item _ => ?_
  cases item <;> rfl

theorem rights_swap (items : List (Item α β)) : rights (items.map Item.swap) = lefts items := by
  rw [lefts, rights, List.filterMap_map]
  refine List.filterMap_congr fun item _ => ?_
  cases item <;> rfl

def Item.Matches (p : α → Prop) (q : β → Prop) (f : α → γ) (g : β → γ) : Item α β → Prop
  | .left a => ¬ p a
  | .right b => ¬ q b
  | .both a b => p a ∧ q b ∧ f a = g b

theorem exists_items {p : α → Prop} {q : β → Prop} [DecidablePred p] [DecidablePred q]
    {f : α → γ} {g : β → γ} {as : List α} {bs : List β}
    (h : (as.filter fun a => p a).map f = (bs.filter fun b => q b).map g) :
    ∃ items : List (Item α β), lefts items = as ∧ rights items = bs ∧
      ∀ item ∈ items, item.Matches p q f g := by
  induction as generalizing bs with
  | nil =>
    refine ⟨bs.map .right, ?_, ?_, ?_⟩
    · simp [lefts, List.filterMap_map, Function.comp_def, Item.left?]
    · simp [rights, List.filterMap_map, Function.comp_def, Item.right?]
    · intro item hitem
      obtain ⟨b, hb, rfl⟩ := List.mem_map.mp hitem
      intro hq
      have hmem : b ∈ bs.filter fun b => q b := List.mem_filter.mpr ⟨hb, by simpa using hq⟩
      have hnil : (bs.filter fun b => q b) = [] := by simpa using h.symm
      rw [hnil] at hmem
      cases hmem
  | cons a as ih =>
    by_cases ha : p a
    · induction bs with
      | nil => simp [ha] at h
      | cons b bs ihb =>
        by_cases hb : q b
        · simp only [List.filter_cons, ha, hb, decide_true, if_true, List.map_cons,
            List.cons.injEq] at h
          obtain ⟨items, hl, hr, hm⟩ := ih h.2
          refine ⟨.both a b :: items, ?_, ?_, ?_⟩
          · rw [← hl]
            rfl
          · rw [← hr]
            rfl
          · intro item hitem
            rcases List.mem_cons.mp hitem with rfl | hitem
            · exact ⟨ha, hb, h.1⟩
            · exact hm item hitem
        · obtain ⟨items, hl, hr, hm⟩ := ihb (by simpa [List.filter_cons, hb] using h)
          refine ⟨.right b :: items, ?_, ?_, ?_⟩
          · rw [← hl]
            rfl
          · rw [← hr]
            rfl
          · intro item hitem
            rcases List.mem_cons.mp hitem with rfl | hitem
            · exact hb
            · exact hm item hitem
    · obtain ⟨items, hl, hr, hm⟩ := ih (by simpa [List.filter_cons, ha] using h)
      refine ⟨.left a :: items, ?_, ?_, ?_⟩
      · rw [← hl]
        rfl
      · rw [← hr]
        rfl
      · intro item hitem
        rcases List.mem_cons.mp hitem with rfl | hitem
        · exact ha
        · exact hm item hitem

/-- The matched pairs are found by counting the selected entries on both sides. -/
theorem boths_eq_zip {p : α → Prop} {q : β → Prop} [DecidablePred p] [DecidablePred q]
    {f : α → γ} {g : β → γ} {items : List (Item α β)}
    (h : ∀ item ∈ items, item.Matches p q f g) :
    boths items = ((lefts items).filter fun a => p a).zip ((rights items).filter fun b => q b) := by
  induction items with
  | nil => rfl
  | cons item items ih =>
    have hrest := ih fun item' hitem => h item' (List.mem_cons_of_mem _ hitem)
    have hitem := h item List.mem_cons_self
    cases item with
    | left a =>
      have ha : ¬ p a := hitem
      simpa [ha] using hrest
    | right b =>
      have hb : ¬ q b := hitem
      simpa [hb] using hrest
    | both a b =>
      have ha : p a := hitem.1
      have hb : q b := hitem.2.1
      simpa [ha, hb] using hrest

theorem mem_boths {items : List (Item α β)} {a : α} {b : β} :
    (a, b) ∈ boths items ↔ .both a b ∈ items := by
  simp only [boths, List.mem_filterMap]
  constructor
  · rintro ⟨item, hitem, heq⟩
    cases item with
    | left a' => cases heq
    | right b' => cases heq
    | both a' b' =>
      cases heq
      exact hitem
  · intro hitem
    exact ⟨_, hitem, rfl⟩

/-! ## Products of lists -/

def lastFastest : List (List α) → List (List α)
  | [] => [[]]
  | l :: ls => l.flatMap fun x => (lastFastest ls).map (x :: ·)

def firstFastest : List (List α) → List (List α)
  | [] => [[]]
  | l :: ls => (firstFastest ls).flatMap fun xs => l.map (· :: xs)

theorem mem_lastFastest {ls : List (List α)} {xs : List α} :
    xs ∈ lastFastest ls ↔ List.Forall₂ (fun x l => x ∈ l) xs ls := by
  induction ls generalizing xs with
  | nil => simp [lastFastest]
  | cons l ls ih =>
    simp only [lastFastest, List.mem_flatMap, List.mem_map, ih, List.forall₂_cons_right_iff]
    constructor
    · rintro ⟨x, hx, ys, hys, rfl⟩
      exact ⟨x, ys, hx, hys, rfl⟩
    · rintro ⟨x, ys, hx, hys, rfl⟩
      exact ⟨x, hx, ys, hys, rfl⟩

theorem mem_firstFastest {ls : List (List α)} {xs : List α} :
    xs ∈ firstFastest ls ↔ List.Forall₂ (fun x l => x ∈ l) xs ls := by
  induction ls generalizing xs with
  | nil => simp [firstFastest]
  | cons l ls ih =>
    simp only [firstFastest, List.mem_flatMap, List.mem_map, ih, List.forall₂_cons_right_iff]
    constructor
    · rintro ⟨ys, hys, x, hx, rfl⟩
      exact ⟨x, ys, hx, hys, rfl⟩
    · rintro ⟨x, ys, hx, hys, rfl⟩
      exact ⟨ys, hys, x, hx, rfl⟩

theorem length_lastFastest (ls : List (List α)) :
    (lastFastest ls).length = (ls.map List.length).prod := by
  induction ls with
  | nil => rfl
  | cons l ls ih => simp [lastFastest, List.length_flatMap, ih]

theorem lastFastest_of_nil_mem {ls : List (List α)} (h : [] ∈ ls) : lastFastest ls = [] := by
  induction ls with
  | nil => cases h
  | cons l ls ih =>
    rcases List.mem_cons.mp h with rfl | h
    · rfl
    · simp [lastFastest, ih h]

theorem firstFastest_of_nil_mem {ls : List (List α)} (h : [] ∈ ls) : firstFastest ls = [] := by
  induction ls with
  | nil => cases h
  | cons l ls ih =>
    rcases List.mem_cons.mp h with rfl | h
    · simp [firstFastest]
    · simp [firstFastest, ih h]

theorem forall₂_of_lastFastest {Q : β → α → Prop} {ls : List (List α)} {bs : List β}
    (hlen : bs.length = ls.length) (hne : ∀ l ∈ ls, l ≠ [])
    (h : ∀ xs ∈ lastFastest ls, List.Forall₂ Q bs xs) :
    List.Forall₂ (fun b l => ∀ x ∈ l, Q b x) bs ls := by
  induction ls generalizing bs with
  | nil =>
    rw [List.length_nil, List.length_eq_zero_iff] at hlen
    exact hlen ▸ List.Forall₂.nil
  | cons l ls ih =>
    obtain ⟨b, bs, rfl⟩ := List.exists_cons_of_length_eq_add_one hlen
    have hsplit : ∀ x ∈ l, ∀ xs ∈ lastFastest ls, Q b x ∧ List.Forall₂ Q bs xs := by
      intro x hx xs hxs
      have := h (x :: xs) (List.mem_flatMap.mpr ⟨x, hx, List.mem_map.mpr ⟨xs, hxs, rfl⟩⟩)
      exact List.forall₂_cons.mp this
    have hrest : lastFastest ls ≠ [] := by
      intro hnil
      have hprod := length_lastFastest ls
      rw [hnil, List.length_nil, eq_comm, List.prod_eq_zero_iff, List.mem_map] at hprod
      obtain ⟨l', hl', hzero⟩ := hprod
      exact hne l' (List.mem_cons_of_mem _ hl') (List.length_eq_zero_iff.mp hzero)
    obtain ⟨xs0, hxs0⟩ := List.exists_mem_of_ne_nil _ hrest
    obtain ⟨x0, hx0⟩ := List.exists_mem_of_ne_nil _ (hne l List.mem_cons_self)
    refine List.Forall₂.cons (fun x hx => (hsplit x hx xs0 hxs0).1) ?_
    refine ih (by simpa using hlen) (fun l' hl' => hne l' (List.mem_cons_of_mem _ hl')) ?_
    intro xs hxs
    exact (hsplit x0 hx0 xs hxs).2

/-! ## One side of a choice -/

def rightsAt (f : β → γ → δ) (items : List (Item α β)) (ks : List γ) : List δ :=
  (items.zip ks).filterMap fun e => e.1.right?.map fun b => f b e.2

def rightRows (f : β → γ → δ) (choices : Item α β → List γ) (items : List (Item α β)) :
    List (List δ) :=
  items.filterMap fun item => item.right?.map fun b => (choices item).map (f b)

def leftsAt (f : α → γ → δ) (items : List (Item α β)) (ks : List γ) : List δ :=
  rightsAt f (items.map Item.swap) ks

section

variable {f : β → γ → δ} {choices : Item α β → List γ} {items : List (Item α β)}

theorem rightRows_cons (item : Item α β) : rightRows f choices (item :: items) =
    (item.right?.map fun b => (choices item).map (f b)).toList ++ rightRows f choices items := by
  cases h : item.right? <;> simp [rightRows, h]

theorem rightsAt_cons (item : Item α β) (k : γ) (ks : List γ) :
    rightsAt f (item :: items) (k :: ks) =
      (item.right?.map fun b => f b k).toList ++ rightsAt f items ks := by
  cases h : item.right? <;> simp [rightsAt, h]

/-- A relation between the entries on the right and what is chosen for them. -/
theorem forall₂_rights_iff {Q : β → δ → Prop} {g : Item α β → β → δ} :
    List.Forall₂ Q (rights items) (items.filterMap fun item => item.right?.map (g item)) ↔
      ∀ item ∈ items, ∀ b, item.right? = some b → Q b (g item b) := by
  induction items with
  | nil => simp [rights]
  | cons item items ih =>
    cases hb : item.right? with
    | none => simpa [rights, hb] using ih
    | some b =>
      simp only [rights] at ih
      simp [rights, hb, ih]

/-- Entries of the other side that leave no choice do not change the order. -/
theorem lastFastest_rightRows
    (h : ∀ item ∈ items, item.right? = none → ∃ k, choices item = [k]) :
    lastFastest (rightRows f choices items) =
      (lastFastest (items.map choices)).map (rightsAt f items) := by
  induction items with
  | nil => rfl
  | cons item items ih =>
    have hrest := ih fun item' hitem => h item' (List.mem_cons_of_mem _ hitem)
    cases hb : item.right? with
    | none =>
      obtain ⟨k, hk⟩ := h item List.mem_cons_self hb
      simp [rightRows_cons, hb, hrest, lastFastest, hk, Function.comp_def, rightsAt_cons]
    | some b =>
      simp [rightRows_cons, hb, hrest, lastFastest, Function.comp_def, rightsAt_cons,
        List.flatMap_map, List.map_flatMap]

theorem firstFastest_rightRows
    (h : ∀ item ∈ items, item.right? = none → ∃ k, choices item = [k]) :
    firstFastest (rightRows f choices items) =
      (firstFastest (items.map choices)).map (rightsAt f items) := by
  induction items with
  | nil => rfl
  | cons item items ih =>
    have hrest := ih fun item' hitem => h item' (List.mem_cons_of_mem _ hitem)
    cases hb : item.right? with
    | none =>
      obtain ⟨k, hk⟩ := h item List.mem_cons_self hb
      simp [rightRows_cons, hb, hrest, firstFastest, hk, rightsAt_cons, List.map_flatMap]
      exact List.map_eq_flatMap
    | some b =>
      simp [rightRows_cons, hb, hrest, firstFastest, Function.comp_def, rightsAt_cons,
        List.flatMap_map, List.map_flatMap]

end

end OmniCompiler.Alignment
