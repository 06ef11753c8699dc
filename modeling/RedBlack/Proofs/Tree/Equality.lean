import Mathlib.Data.List.Pairwise
import RedBlack.Proofs.LivePositions
import RedBlack.Proofs.Tree.Failures
import RedBlack.Proofs.Tree.Ranges
import RedBlack.Tree.View

namespace RedBlack

theorem isEqv_eq_true_iff {α : Type} {same : α → α → Bool} {xs ys : List α} :
    xs.isEqv ys same = true ↔ List.Forall₂ (fun a b => same a b = true) xs ys := by
  induction xs generalizing ys with
  | nil => cases ys <;> simp [List.isEqv]
  | cons x xs ih => cases ys <;> simp [List.isEqv, ih]

namespace Drain

open RedBlack.Action

variable {α κ : Type} {key : α → κ} {d : Drain key} {entries : List (Slot × α)} {o : Outside α}

theorem follow_eq (h : d.tree.Represents entries o) (script : List Side) :
    (follow script).Yields d fun answer _ => answer = takeEnds script (entries.map Prod.snd) := by
  induction script generalizing d entries with
  | nil => exact rfl
  | cons side script ih =>
    rw [follow, Yields, wp_bind]
    refine (advance_spec h side).mono ?_
    rintro item d₁ ⟨_, hstep⟩
    rw [wp_bind]
    cases side with
    | left =>
      obtain ⟨rfl, hleft⟩ := hstep
      refine (ih hleft).mono ?_
      rintro _ _ rfl
      simp [takeEnds]
    | right =>
      obtain ⟨rfl, hleft⟩ := hstep
      refine (ih hleft).mono ?_
      rintro _ _ rfl
      simp [takeEnds, List.map_dropLast]

end Drain

namespace Tree

open RedBlack.Action

variable {α κ ε ρ : Type} {key : α → κ} {t u t₀ : Tree key} {entries other : List (Slot × α)} {o o' : Outside α}
  {x : α} {xs : List α}

/-- All ways to iterate over a tree give these items in this order. -/
structure Gives (t : Tree key) (xs : List α) : Prop where
  items : t.items = .ok xs
  rest : ∃ w, t.walk.rest .left = .ok (xs, w)
  walk : ∀ script, ∃ w, t.walk.follow script = .ok (takeEnds script xs, w)
  drain : ∀ script, ((Drain.follow script).run t.drain).answer = .ok (takeEnds script xs)

theorem Represents.gives (h : t.Represents entries o) : t.Gives (entries.map Prod.snd) where
  items := h.items
  rest := h.walk.rest_left
  walk := h.walk.follow_eq
  drain script := by
    obtain ⟨answer, hanswer, rfl⟩ := (Drain.follow_eq (d := t.drain) h script).answer
    exact hanswer

theorem Represents.sameItemsBy (h : t.Represents entries o) (hu : u.Represents other o') (same : α → α → Bool) :
    t.sameItemsBy same u = .ok ((entries.map Prod.snd).isEqv (other.map Prod.snd) same) := by
  rw [Tree.sameItemsBy, h.size, hu.size]
  split
  · rw [h.items, hu.items]
    rfl
  · next hne => simp [List.isEqv_eq_decide, hne]

/-- The comparison of two trees that give these items is the comparison of the
    items, one by one in order, whatever the trees went through. -/
structure ComparedAs (t u : Tree key) (xs ys : List α) : Prop where
  by_items : ∀ same : α → α → Bool, ∃ answer, t.sameItemsBy same u = .ok answer ∧
    (answer = true ↔ List.Forall₂ (fun a b => same a b = true) xs ys)
  equal_iff : ∀ [DecidableEq α], t.sameItems u = .ok true ↔ xs = ys

theorem Represents.comparedAs (h : t.Represents entries o) (hu : u.Represents other o') :
    t.ComparedAs u (entries.map Prod.snd) (other.map Prod.snd) where
  by_items same := ⟨_, h.sameItemsBy hu same, isEqv_eq_true_iff⟩
  equal_iff := by
    intro _
    rw [sameItems, h.sameItemsBy hu, Except.ok.injEq, isEqv_eq_true_iff]
    simp only [decide_eq_true_eq]
    rw [List.forall₂_eq_eq_eq]

/-- Of two keys one comes before the other. -/
def Apart (less : κ → κ → Bool) (key : α → κ) (a b : α) : Prop :=
  less (key a) (key b) = true ∨ less (key b) (key a) = true

/-- The item that a request is to put in. -/
def Command.item? : Command α κ ε → Option α
  | insertUnique item | insertEqual item => some item
  | insertUniqueHint _ item | insertEqualHint _ item => some item
  | insertUniqueWith build | insertEqualWith build => (build ()).toOption
  | insertUniqueHintWith _ build | insertEqualHintWith _ build => (build ()).toOption
  | _ => none

/-- What putting an item in comes to: it is between neighbours that suit it, or
    there is one with an equivalent key, or there was no slot. -/
inductive PutIn (t : Tree key) (entries : List (Slot × α)) (o : Outside α) (x : α) (reply : Reply α ε) (u : Tree key) :
    Prop where
  | put {before after : List (Slot × α)} {slot : Slot} : reply.failure? = none → entries = before ++ after →
    (∀ a ∈ before.getLast?, t.less (key a.2) (key x) = true ∨ t.less (key x) (key a.2) = false) →
    (∀ b ∈ after.head?, t.less (key x) (key b.2) = true ∨ t.less (key b.2) (key x) = false) →
    u.Continues t → u.Represents (before ++ (slot, x) :: after) o → t.PutIn entries o x reply u
  | there {slot : Slot} {other : α} : (slot, other) ∈ entries → ¬ Apart t.less key x other →
    t.PutIn entries o x reply u
  | refused : reply.failure? = some (.alloc .noSlot) → ¬ u.store.HasRoom → t.PutIn entries o x reply u

theorem Insertion.putIn {below above : κ → Prop} {answer : Except AllocError Position}
    {f : Except AllocError Position → Reply α ε} (h : t.Insertion entries o x below above answer u)
    (hbelow : ∀ a, below a → t.less a (key x) = true ∨ t.less (key x) a = false)
    (habove : ∀ b, above b → t.less (key x) b = true ∨ t.less b (key x) = false)
    (hok : ∀ p, (f (.ok p)).failure? = none) (herror : (f (.error .noSlot)).failure? = some (.alloc .noSlot)) :
    t.PutIn entries o x (f answer) u := by
  cases h with
  | inserted hsplit hbefore hafter hu hrep =>
    exact .put (hok _) hsplit (fun a ha => hbelow _ (hbefore a ha)) (fun b hb => habove _ (hafter b hb)) hu hrep
  | refused hroom _ _ => exact .refused herror hroom

theorem UniqueInsertion.putIn {answer : Except AllocError (Position × Bool)}
    {f : Except AllocError (Position × Bool) → Reply α ε} (h : t.UniqueInsertion entries o x answer u)
    (hok : ∀ p, (f (.ok p)).failure? = none) (herror : (f (.error .noSlot)).failure? = some (.alloc .noSlot)) :
    t.PutIn entries o x (f answer) u := by
  cases h with
  | vacant hinsertion =>
    exact hinsertion.putIn (f := fun answer => f (answer.map fun p => (p, true))) (fun _ => .inl) (fun _ => .inl)
      (fun p => hok _) herror
  | occupied hmem hbelow habove _ _ => exact .there hmem (by simp [Apart, hbelow, habove])

theorem Emplacement.putIn {build : Unit → Except ε α} {insertion : α → Except AllocError ρ → Tree key → Prop}
    {f : Built ε ρ → Reply α ε} {answer : Built ε ρ} (h : t.Emplacement entries o build insertion answer u)
    (hbuild : (build ()).toOption = some x)
    (hrefused : (f { calls := 0, result := .error (.alloc .noSlot) }).failure? = some (.alloc .noSlot))
    (hinsertion : ∀ answer, insertion x (.ok answer) u →
      t.PutIn entries o x (f { calls := 1, result := .ok answer }) u) : t.PutIn entries o x (f answer) u := by
  cases h with
  | refused hroom _ _ => exact .refused hrefused hroom
  | unbuilt herror _ _ =>
    rw [herror] at hbuild
    cases hbuild
  | built hitem hdone =>
    rw [hitem] at hbuild
    cases hbuild
    exact hinsertion _ hdone

/-- Every request that is to put an item in does so, unless there is an
    equivalent one or no slot. -/
theorem Represents.putIn (h : t.Represents entries o) {c : Command α κ ε} (hitem : c.item? = some x)
    (hlegal : c.Legal t) : (c.run : Op key (Reply α ε)).Yields t (t.PutIn entries o x) := by
  have hunique (answer : Position × Bool) (u : Tree key) (hdone : t.UniqueInsertion entries o x (.ok answer) u) :
      t.PutIn entries o x (.uniqueWith { calls := 1, result := .ok answer } : Reply α ε) u :=
    hdone.putIn (f := fun e => .uniqueWith { calls := 1, result := e.mapError .alloc }) (fun _ => rfl) rfl
  have hequal (answer : Position) (u : Tree key) (hdone : t.EqualInsertion entries o x (.ok answer) u) :
      t.PutIn entries o x (.equalWith { calls := 1, result := .ok answer } : Reply α ε) u :=
    Insertion.putIn hdone (f := fun e => .equalWith { calls := 1, result := e.mapError .alloc }) (fun _ => id)
      (fun _ => id) (fun _ => rfl) rfl
  cases c with
  | insertUnique item =>
    cases hitem
    rw [Command.run, Yields, wp_map]
    exact (h.insertUnique x).mono fun _ _ hdone => hdone.putIn (fun _ => rfl) rfl
  | insertEqual item =>
    cases hitem
    rw [Command.run, Yields, wp_map]
    exact (h.insertEqual x).mono fun _ _ hdone =>
      Insertion.putIn hdone (fun _ => id) (fun _ => id) (fun _ => rfl) rfl
  | insertUniqueHint hint item =>
    cases hitem
    rw [Command.run, Yields, wp_map]
    exact (h.insertUniqueHint x hlegal).mono fun _ _ hdone => hdone.putIn (fun _ => rfl) rfl
  | insertEqualHint hint item =>
    cases hitem
    rw [Command.run, Yields, wp_map]
    exact (h.insertEqualHint x hlegal).mono fun _ _ hdone =>
      Insertion.putIn hdone (fun _ => id) (fun _ => id) (fun _ => rfl) rfl
  | insertUniqueWith build =>
    rw [Command.run, Yields, wp_map]
    exact (h.insertUniqueWith build).mono fun _ u hdone => hdone.putIn hitem rfl fun answer => hunique answer u
  | insertEqualWith build =>
    rw [Command.run, Yields, wp_map]
    exact (h.insertEqualWith build).mono fun _ u hdone => hdone.putIn hitem rfl fun answer => hequal answer u
  | insertUniqueHintWith hint build =>
    rw [Command.run, Yields, wp_map]
    exact (h.insertUniqueHintWith build hlegal).mono fun _ u hdone =>
      hdone.putIn hitem rfl fun answer => hunique answer u
  | insertEqualHintWith hint build =>
    rw [Command.run, Yields, wp_map]
    exact (h.insertEqualHintWith build hlegal).mono fun _ u hdone =>
      hdone.putIn hitem rfl fun answer => hequal answer u
  | _ => cases hitem

/-- Whether a request is answered and the answer is no failure. -/
def Command.succeeds (c : Command α κ ε) (t : Tree key) : Bool :=
  match (c.run.run t).answer with
  | .ok reply => reply.failure?.isNone
  | .error _ => false

/-- The trees that come of putting items in one after the other, the last one
    first, each by a request of its own. If no two items are equivalent, neither
    their order nor the requests leave a trace. -/
inductive Filled (ε : Type) (t : Tree key) : List α → Tree key → Prop where
  | start : Filled ε t [] t
  | step {xs : List α} {u : Tree key} {x : α} {c : Command α κ ε} : Filled ε t xs u → c.item? = some x → c.Legal u →
    c.succeeds u = true → Filled ε t (x :: xs) (c.run.run u).state

/-- A tree filled with items of which no two are equivalent holds them in
    order. -/
theorem Filled.represents (hfilled : Filled ε t₀ xs t) (h₀ : t₀.Represents [] o) (hless : StrictWeak t₀.less)
    (hapart : xs.Pairwise (Apart t₀.less key)) :
    t.less = t₀.less ∧ ∃ entries, t.Represents entries o ∧ Sorted t₀.less key entries ∧
      (entries.map Prod.snd).Perm xs := by
  induction hfilled with
  | start => exact ⟨rfl, [], h₀, List.Pairwise.nil, .nil⟩
  | step _ hitem hlegal hdone ih =>
    obtain ⟨hnew, hapart⟩ := List.pairwise_cons.mp hapart
    obtain ⟨hu, entries, hrep, hsorted, hperm⟩ := ih hapart
    obtain ⟨_, hanswer, hput⟩ := (hrep.putIn hitem hlegal).answer
    cases hput with
    | put _ hsplit hbefore hafter hcontinues hrep' =>
      refine ⟨hcontinues.less.trans hu, _, hrep', ?_, ?_⟩
      · rw [hu] at hbefore hafter
        exact (Change.grown hsplit hbefore hafter).sorted hless hsorted
      · subst hsplit
        refine .trans ?_ (.cons _ hperm)
        simp
    | there hmem hnot =>
      rw [hu] at hnot
      exact absurd (hnew _ (hperm.subset (List.mem_map_of_mem hmem))) hnot
    | refused hfailure _ => simp [Command.succeeds, hanswer, hfailure] at hdone

/-- Entries in order are settled by their items if no two of these are
    equivalent. -/
theorem items_eq_of_sorted {less : κ → κ → Bool} (hsorted : Sorted less key entries)
    (hother : Sorted less key other) (hapart : xs.Pairwise (Apart less key))
    (hperm : (entries.map Prod.snd).Perm xs) (hperm' : (other.map Prod.snd).Perm xs) :
    entries.map Prod.snd = other.map Prod.snd := by
  have hsymm : Std.Symm (Apart less key) := ⟨fun _ _ => Or.symm⟩
  let le (a b : α) : Prop := less (key b) (key a) = false
  have hle : (entries.map Prod.snd).Pairwise le := List.pairwise_map.mpr hsorted
  have hle' : (other.map Prod.snd).Pairwise le := List.pairwise_map.mpr hother
  refine List.Perm.eq_of_pairwise ?_ hle hle' (hperm.trans hperm'.symm)
  intro a b ha hb hab hba
  by_contra hne
  obtain hlt | hlt := hapart.forall (hperm.subset ha) (hperm'.subset hb) hne
  · exact Bool.false_ne_true (hba.symm.trans hlt)
  · exact Bool.false_ne_true (hab.symm.trans hlt)

/-- The next item that is equivalent to none goes in as well, unless the store
    has no slot for it. -/
theorem Filled.goes_on (hfilled : Filled ε t₀ xs t) (h₀ : t₀.Represents [] o) (hless : StrictWeak t₀.less)
    (hapart : (x :: xs).Pairwise (Apart t₀.less key)) {c : Command α κ ε} (hitem : c.item? = some x)
    (hlegal : c.Legal t) : c.succeeds t = true ∨ ∃ reply, (c.run.run t).answer = .ok reply ∧
      reply.failure? = some (.alloc .noSlot) ∧ ¬ (c.run.run t).state.store.HasRoom := by
  obtain ⟨hnew, hapart⟩ := List.pairwise_cons.mp hapart
  obtain ⟨hu, entries, hrep, _, hperm⟩ := hfilled.represents h₀ hless hapart
  obtain ⟨reply, hanswer, hput⟩ := (hrep.putIn hitem hlegal).answer
  cases hput with
  | put hdone _ _ _ _ _ => exact .inl (by simp [Command.succeeds, hanswer, hdone])
  | there hmem hnot =>
    rw [hu] at hnot
    exact absurd (hnew _ (hperm.subset (List.mem_map_of_mem hmem))) hnot
  | refused hfailure hroom => exact .inr ⟨reply, hanswer, hfailure, hroom⟩

/-- Both trees give these items, and compare as equal as the items are to
    themselves. -/
structure Alike (t u : Tree key) (xs : List α) : Prop where
  left : t.Gives xs
  right : u.Gives xs
  same : ∀ same : α → α → Bool, t.sameItemsBy same u = .ok (xs.all fun x => same x x)
  equal : ∀ [DecidableEq α], t.sameItems u = .ok true

theorem Represents.alike (h : t.Represents entries o) (hu : u.Represents other o')
    (heq : entries.map Prod.snd = other.map Prod.snd) : t.Alike u (entries.map Prod.snd) where
  left := h.gives
  right := heq ▸ hu.gives
  same same := by
    rw [h.sameItemsBy hu, ← heq, Except.ok.injEq, Bool.eq_iff_iff, isEqv_eq_true_iff, List.forall₂_same,
      List.all_eq_true]
  equal := (h.comparedAs hu).equal_iff.mpr heq

end Tree

namespace Forest

open RedBlack.Tree

variable {α κ ε : Type} {key : α → κ} {f g : Forest key} {t u : Tree key}

/-- Trees that compare equal are those with the same items in order, however
    they came about. And if items of which no two are equivalent are put into
    two empty trees, in any order and by any requests that put items in, the two
    trees are alike; to put one of them in fails only where the store has no
    slot for it. -/
theorem equality_forgets_history (hf : Reachable (fun f (c : Command α κ ε) => c.OnLive f) f)
    (hg : Reachable (fun g (c : Command α κ ε) => c.OnLive g) g) (ht : t ∈ f.trees) (hu : u ∈ g.trees) :
    (∃ xs ys, t.Gives xs ∧ u.Gives ys ∧ t.ComparedAs u xs ys) ∧
      ∀ less, StrictWeak less → t.less = less → u.less = less → t.size = 0 → u.size = 0 →
        (∀ xs ys t' u', xs.Pairwise (Apart less key) → ys.Perm xs → Filled ε t xs t' → Filled ε u ys u' →
          ∃ zs, zs.Perm xs ∧ t'.Alike u' zs) ∧
        ∀ xs x t' (c : Tree.Command α κ ε), (x :: xs).Pairwise (Apart less key) → Filled ε t xs t' →
          c.item? = some x → c.Legal t' → c.succeeds t' = true ∨ ∃ reply, (c.run.run t').answer = .ok reply ∧
            reply.failure? = some (.alloc .noSlot) ∧ ¬ (c.run.run t').state.store.HasRoom := by
  obtain ⟨entries, o, hrep⟩ := hf.represents_onLive ht
  obtain ⟨other, o', hrep'⟩ := hg.represents_onLive hu
  refine ⟨⟨_, _, hrep.gives, hrep'.gives, hrep.comparedAs hrep'⟩, ?_⟩
  rintro less hless rfl hsame hsize hsize'
  obtain rfl : entries = [] := List.eq_nil_of_length_eq_zero (hrep.size ▸ hsize)
  obtain rfl : other = [] := List.eq_nil_of_length_eq_zero (hrep'.size ▸ hsize')
  refine ⟨?_, fun xs x t' c hapart hfilled => hfilled.goes_on hrep hless hapart⟩
  intro xs ys t' u' hapart hperm hfilled hfilled'
  obtain ⟨_, done, hdone, hsorted, hitems⟩ := hfilled.represents hrep hless hapart
  have hsymm (a b : α) (hab : Apart t.less key a b) : Apart t.less key b a := hab.symm
  obtain ⟨_, done', hdone', hsorted', hitems'⟩ := hfilled'.represents hrep' (hsame ▸ hless)
    (hsame ▸ hapart.perm hperm.symm fun {a b} => hsymm a b)
  rw [hsame] at hsorted'
  exact ⟨_, hitems, hdone.alike hdone' (items_eq_of_sorted hsorted hsorted' hapart hitems (hitems'.trans hperm))⟩

/-- Into one new tree go 1 and then 2, made in place; into another one, whose
    store is limited, go 2 and then 1 at the hint of the other. -/
theorem equality_forgets_history_two :
    ∃ t u : Tree (id : Nat → Nat), t.shape ≠ u.shape ∧ t.sameItems u = .ok true ∧
      ∃ zs, zs.Perm [2, 1] ∧ t.Alike u zs := by
  let less (a b : Nat) : Bool := decide (a < b)
  let limited : Store Nat := .limited (.arena .empty) 5
  let t₀ : Tree (id : Nat → Nat) := .empty id less (.arena .empty) 1
  let u₀ : Tree (id : Nat → Nat) := .empty id less limited 2
  have hempty : Reachable (fun f (c : Command Nat Nat Unit) => c.OnLive f) (.empty id) := .empty
  have hf := hempty.step (c := .plant less (.arena .empty)) Arena.sound_empty
  have hg := hf.step (c := .plant less limited) Arena.sound_empty
  obtain ⟨_, hforget⟩ := equality_forgets_history (t := t₀) (u := u₀) hf hg (Array.mem_of_getElem? (i := 0) rfl)
    (Array.mem_of_getElem? (i := 1) rfl)
  obtain ⟨halike, hgoes⟩ := hforget less StrictWeak.decide_lt rfl rfl rfl rfl
  have hapart : [2, 1].Pairwise (Apart less (id : Nat → Nat)) := by simp [Apart, less]
  have hdone : (.insertUnique 1 : Tree.Command Nat Nat Unit).succeeds t₀ = true :=
    (hgoes [] 1 t₀ (.insertUnique 1) (by simp) .start rfl trivial).resolve_right
      fun ⟨_, _, _, hfull⟩ => hfull (.inr (by decide +kernel))
  have ht₁ : Filled Unit t₀ [1] _ := Filled.start.step (c := .insertUnique 1) rfl trivial hdone
  have ht₂ := ht₁.step (c := .insertUniqueWith fun _ => .ok 2) rfl trivial (by decide +kernel)
  have hu₁ : Filled Unit u₀ [2] _ := Filled.start.step (c := .insertEqual 2) rfl trivial (by decide +kernel)
  have hu₂ := hu₁.step (x := 1) (c := .insertUniqueHint ⟨some 0, 2⟩ 1) rfl ⟨rfl, by simp; decide +kernel⟩
    (by decide +kernel)
  obtain ⟨zs, hzs, hsame⟩ := halike [2, 1] [1, 2] _ _ hapart (.swap 2 1 []) ht₂ hu₂
  exact ⟨_, _, by decide +kernel, hsame.equal, zs, hzs, hsame⟩

end Forest

end RedBlack
