import RedBlack.Proofs.Tree.Distinct
import RedBlack.Proofs.Tree.Granted
import RedBlack.Proofs.Tree.Runs

namespace RedBlack

namespace Tree

open RedBlack.Action

variable {α κ ε : Type} {key : α → κ} {t u : Tree key} {entries lower middle upper : List (Slot × α)} {o : Outside α}
  {item : α} {e : Slot × α} {slot : Slot} {store : Store α} {k : κ}

section Order

variable (hless : StrictWeak t.less) (hsorted : Sorted t.less key (lower ++ middle ++ upper))
  (hparted : Parted t.less (fun e : Slot × α => key e.2) k lower middle upper)
include hless hsorted hparted

/-- The search under unique keys finds the last item of the class, or the place
    where the class would be. It looks at one entry only, the last one that does
    not come after the key; if there is none of the class, that is the last one
    before it. -/
theorem Represents.uniquePlace_parted (h : t.Represents (lower ++ middle ++ upper) o) :
    (∃ e ∈ middle.getLast?, (t.uniquePlace k).answer = .ok (.occupied e.1)) ∨
      (middle = [] ∧ ∃ p, t.Gap p lower upper ∧ (t.uniquePlace k).answer = .ok (.vacant p.place)) := by
  obtain ⟨p, before, after, v, hsplit, hgap, hpoints, hv, hfound⟩ := h.uniquePlace_upper k
  obtain ⟨rfl, rfl⟩ := hpoints.ends hless hsorted hparted hsplit
  cases middle using List.reverseRecOn with
  | nil =>
    rw [List.append_nil] at hgap hfound
    obtain ⟨rfl, _⟩ | ⟨a, ha, _, hnot⟩ := hfound
    · exact .inr ⟨rfl, p, hgap, hv⟩
    · rw [hparted.before a (List.mem_of_mem_getLast? ha)] at hnot
      cases hnot
  | append_singleton init e =>
    have hlast : (lower ++ (init ++ [e])).getLast? = some e := by simp [← List.append_assoc]
    rw [hlast] at hfound
    obtain ⟨_, hbelow⟩ | ⟨a, ha, rfl, _⟩ := hfound
    · have halike := alike_eq_true_iff.mp (hparted.between e (by simp))
      rw [hbelow e rfl] at halike
      cases halike.2
    · exact .inl ⟨a, by simpa using ha, hv⟩

end Order

section Deciding

variable (hless : StrictWeak t.less) (hsorted : Sorted t.less key (lower ++ middle ++ upper))
  (hparted : Parted t.less (fun e : Slot × α => key e.2) (key item) lower middle upper)
include hless hsorted hparted

/-- With an item of the class there, nothing happens, and the last one of the
    class is named. -/
theorem Represents.insertUnique_there (h : t.Represents (lower ++ middle ++ upper) o) (he : e ∈ middle.getLast?) :
    ((Tree.insertUnique item).run t).answer = .ok (.ok (t.position (some e.1), false)) ∧
      ((Tree.insertUnique item).run t).state = t := by
  have hfound : (t.uniquePlace (key item)).answer = .ok (.occupied e.1) := by
    obtain ⟨last, hlast, hfound⟩ | ⟨rfl, _⟩ := h.uniquePlace_parted hless hsorted hparted
    · rwa [Option.mem_unique hlast he] at hfound
    · cases he
  obtain ⟨hstate, hanswer⟩ := run_insertUniqueBy Tree.uniquePlace hfound
  exact ⟨hanswer, hstate⟩

/-- With none there, a slot at hand takes the item to the place of its class. -/
theorem Represents.insertUnique_vacant (h : t.Represents (lower ++ upper) o) (hnone : middle = [])
    (halloc : t.store.allocate = .ok (.ok slot, store)) :
    t.PutsAt (Tree.insertUnique item) (fun p => .ok (p, true)) (lower ++ upper) lower.length (slot, item) := by
  subst hnone
  rw [List.append_nil] at hsorted
  have hrep : t.Represents (lower ++ [] ++ upper) o := by rwa [List.append_nil]
  obtain ⟨_, hlast, _⟩ | ⟨_, p, hgap, hfound⟩ := hrep.uniquePlace_parted hless (by rwa [List.append_nil]) hparted
  · cases hlast
  · have hnew : Sorted t.less key (lower ++ (slot, item) :: upper) := by
      refine hsorted.insert hless ?_ ?_
      · intro a ha
        exact hless.asymm (hparted.before a (List.mem_of_mem_getLast? ha))
      · intro b hb
        exact hless.asymm (hparted.after b (List.mem_of_mem_head? hb))
    refine putsAt_of_yields (o := o) ?_ hnew
    exact h.insertUniqueBy_granted halloc hgap hfound

end Deciding

/-- A request of those under which keys are unique: it does not insert among
    equivalent keys. -/
def Command.Unique : Command α κ ε → Prop
  | insertEqual _ | insertEqualHint _ _ | insertEqualWith _ | insertEqualHintWith _ _ => False
  | _ => True

/-- The tree is in a later state of the given one, and still has no two items
    with keys alike. -/
def StaysDistinct (t : Tree key) (o : Outside α) (u : Tree key) : Prop :=
  u.Continues t ∧ ∃ rest, u.Distinct rest o

namespace Distinct

theorem stays (h : t.Distinct entries o) (hu : t.ShrunkFrom entries o u) : t.StaysDistinct o u := by
  obtain ⟨hu, rest, hsub, hrep⟩ := hu
  exact ⟨hu, rest, h.of_sublist hu hrep hsub⟩

theorem uniqueInsertion {answer : Except AllocError (Position × Bool)} (h : t.Distinct entries o)
    (hless : StrictWeak t.less) (hinsertion : t.UniqueInsertion entries o item answer u) : t.StaysDistinct o u := by
  cases hinsertion with
  | vacant hinsertion =>
    obtain ⟨hu, ⟨_, _, _, _, _, _, hdone⟩ | ⟨_, _, hdone⟩⟩ := h.insertion hless hinsertion
    · exact ⟨hu, _, hdone⟩
    · exact ⟨hu, _, hdone⟩
  | occupied _ _ _ hu hrep => exact h.stays (.kept hu hrep)

theorem emplacement {build : Unit → Except ε α} {answer : Built ε (Position × Bool)} (h : t.Distinct entries o)
    (hless : StrictWeak t.less) (hdone : t.Emplacement entries o build (t.UniqueInsertion entries o) answer u) :
    t.StaysDistinct o u :=
  hdone.left (fun hu hrep => h.stays (.kept hu hrep)) fun _ _ hinsertion => h.uniqueInsertion hless hinsertion

/-- A request under which keys are unique leaves no two items with keys alike,
    also where it stops. -/
theorem command {c : Command α κ ε} (h : t.Distinct entries o) (hless : StrictWeak t.less) (hlive : c.OnLive t)
    (hunique : c.Unique) :
    (c.run : Op key (Reply α ε)).wp (fun _ => t.StaysDistinct o) (fun _ => t.StaysDistinct o) t := by
  by_cases hinserts : c.Inserts
  · have hlegal := hlive.legal hinserts
    cases c with
    | insertUnique item =>
      rw [Command.run, wp_map]
      exact (h.represents.insertUnique item).mono fun _ _ hdone => h.uniqueInsertion hless hdone
    | insertUniqueHint hint item =>
      rw [Command.run, wp_map]
      exact (h.represents.insertUniqueHint item hlegal).mono fun _ _ hdone => h.uniqueInsertion hless hdone
    | insertUniqueWith build =>
      rw [Command.run, wp_map]
      exact (h.represents.insertUniqueWith build).mono fun _ _ hdone => h.emplacement hless hdone
    | insertUniqueHintWith hint build =>
      rw [Command.run, wp_map]
      exact (h.represents.insertUniqueHintWith build hlegal).mono fun _ _ hdone => h.emplacement hless hdone
    | insertEqual | insertEqualHint | insertEqualWith | insertEqualHintWith => exact hunique.elim
    | _ => exact hinserts.elim
  · exact wp_mono (h.represents.command_onLive_shrinks hinserts hlive) (fun _ _ hu => h.stays hu)
      fun _ _ hu => h.stays hu

end Distinct

/-- A run of requests under which keys are unique never leads to two items with
    keys alike. -/
theorem Reachable.distinct {origin : Tree key}
    (h : Reachable (fun t (c : Command α κ ε) => c.OnLive t ∧ c.Unique) origin t) (hless : StrictWeak origin.less)
    (horigin : origin.Distinct entries o) : origin.StaysDistinct o t := by
  induction h with
  | start => exact ⟨.refl origin, entries, horigin⟩
  | @step t c _ hallowed ih =>
    obtain ⟨ht, left, hleft⟩ := ih
    have hstep := state_of_wp (hleft.command (ht.less ▸ hless) hallowed.1 hallowed.2)
    obtain ⟨hu, rest, hrest⟩ := hstep
    exact ⟨hu.trans ht, rest, hrest⟩
  | @setBudget t budget _ ih =>
    obtain ⟨ht, left, hleft⟩ := ih
    exact ⟨⟨ht.less, ht.tag⟩, left, hleft.represents.withStore (hleft.represents.store.setBudget budget),
      hleft.ascending⟩

/-- An insertion under unique keys decides by the class of the key. The entries
    before the class, the class and the entries after it make up the tree. If
    the class has items, the last one is named and neither the tree nor its
    store changes, whether there is room or not; if it has none, the item goes
    to its place. In a tree that gets no other insertions no two keys are
    alike. -/
theorem insertUnique_decides_by_class {f : Forest key}
    (hf : f.Reachable fun f (c : Forest.Command α κ ε) => c.OnLive f ∧ c.KeepsOrder f) (ht : t ∈ f.trees) (item : α) :
    (∃ lower middle upper : List (Slot × α), t.listing = .ok (lower ++ middle ++ upper) ∧
      Parted t.less (fun e : Slot × α => key e.2) (key item) lower middle upper ∧
      (∀ e ∈ middle.getLast?, ((insertUnique item).run t).answer = .ok (.ok (t.position (some e.1), false)) ∧
        ((insertUnique item).run t).state = t) ∧
      (middle = [] → ∀ slot store, t.store.allocate = .ok (.ok slot, store) →
        t.PutsAt (insertUnique item) (fun p => .ok (p, true)) (lower ++ upper) lower.length (slot, item))) ∧
    ∀ (less : κ → κ → Bool) (store : Store α) (tag : UInt64) (u : Tree key), StrictWeak less → store.Sound →
      Reachable (fun t (c : Command α κ ε) => c.OnLive t ∧ c.Unique) (.empty key less store tag) u →
      ∃ entries, u.listing = .ok entries ∧ entries.Pairwise fun a b => alike less (key a.2) (key b.2) = false := by
  constructor
  · obtain ⟨entries, o, h, hless, hsorted⟩ := hf.represents_sorted ht
    obtain ⟨lower, middle, upper, rfl, hbounds⟩ := h.bounds hless hsorted (key item)
    refine ⟨lower, middle, upper, h.listing, hbounds.parted, ?_, ?_⟩
    · intro e he
      exact h.insertUnique_there hless hsorted hbounds.parted he
    · intro hnone slot store halloc
      have hrep : t.Represents (lower ++ upper) o := by simpa [hnone] using h
      exact hrep.insertUnique_vacant hless hsorted hbounds.parted hnone halloc
  · intro less store tag u hless hstore hu
    have horigin : (empty key less store tag).Distinct [] ⟨store.use, store.surplus, store.limits⟩ :=
      ⟨represents_empty hstore.holds_nil, List.Pairwise.nil⟩
    obtain ⟨hcontinues, entries, hentries⟩ := hu.distinct hless horigin
    refine ⟨entries, hentries.represents.listing, ?_⟩
    have hascending := hentries.ascending
    rw [hcontinues.less] at hascending
    exact hascending.imp alike_eq_false_of_less

/-- In a tree of two items 3 whose store has no room left, a third one changes
    nothing, and the second one is named. A tree that gets 2, then 1 with the
    end as its hint and then 2 once more has two items. -/
theorem insertUnique_decides_by_class_full :
    (∃ t : Tree (id : Nat → Nat), t.listing = .ok [(0, 3), (1, 3)] ∧
      t.store.allocate = .ok (.error .noSlot, t.store) ∧
      ((insertUnique 3).run t).answer = .ok (.ok (⟨some 1, 1⟩, false)) ∧ ((insertUnique 3).run t).state = t) ∧
    ∃ u : Tree (id : Nat → Nat), u.listing = .ok [(1, 1), (0, 2)] ∧
      [((1, 1) : Slot × Nat), (0, 2)].Pairwise fun a b => alike (fun a b => decide (a < b)) a.2 b.2 = false := by
  have h₀ : Forest.Reachable (fun f (c : Forest.Command Nat Nat Empty) => c.OnLive f ∧ c.KeepsOrder f)
    (.empty (id : Nat → Nat)) := .empty
  have h₁ := h₀.step (c := .plant (fun a b => decide (a < b)) (.limited (.arena .empty) 2))
    ⟨Arena.sound_empty, StrictWeak.decide_lt⟩
  have h₂ := h₁.step (c := .onTree 0 (.insertEqual 3)) ⟨⟨_, rfl, nofun⟩, trivial⟩
  have h₃ := h₂.step (c := .onTree 0 (.insertEqual 3)) ⟨⟨_, rfl, nofun⟩, trivial⟩
  obtain ⟨⟨lower, middle, upper, hlisting, hparted, hthere, _⟩, hruns⟩ :=
    insertUnique_decides_by_class h₃ (Array.mem_of_getElem? (i := 0) rfl) 3
  have hentries : lower ++ middle ++ upper = [(0, 3), (1, 3)] := Except.ok.inj (hlisting.symm.trans rfl)
  have hmiddle : middle = [(0, 3), (1, 3)] := by
    rw [← hparted.filter_eq, hentries]
    rfl
  obtain ⟨hanswer, hstate⟩ := hthere (1, 3) (by rw [hmiddle]; rfl)
  constructor
  · exact ⟨_, by rw [hlisting, hentries], rfl, hanswer, hstate⟩
  · have r₀ : Reachable (fun t (c : Command Nat Nat Empty) => c.OnLive t ∧ c.Unique)
      (.empty id (fun a b => decide (a < b)) (.arena .empty) 7) _ := .start
    have r₁ := r₀.step (c := .insertUnique 2) ⟨nofun, trivial⟩
    have r₂ := r₁.step (c := .insertUniqueHint ⟨none, 7⟩ 1)
      ⟨by simp [Command.OnLive, Command.positions, LiveOrEnd]; rfl, trivial⟩
    have r₃ := r₂.step (c := .insertUnique 2) ⟨nofun, trivial⟩
    obtain ⟨entries, hlast, hapart⟩ := hruns _ (.arena .empty) 7 _ StrictWeak.decide_lt Arena.sound_empty r₃
    obtain rfl : entries = [(1, 1), (0, 2)] := Except.ok.inj (hlast.symm.trans rfl)
    exact ⟨_, hlast, hapart⟩

end Tree

end RedBlack
