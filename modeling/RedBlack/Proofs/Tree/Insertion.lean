import RedBlack.Proofs.Shape.Growth
import RedBlack.Proofs.Tree.Vacancy
import RedBlack.Tree.Insertion

namespace RedBlack

namespace Tree

open RedBlack.Action

variable {α κ ε ρ : Type} {key : α → κ} {t u v : Tree key} {entries before after : List (Slot × α)}
  {o : Outside α} {slot : Slot} {item : α} {p : Path} {below above : κ → Prop}

/-- The tree is another state of the given one: its comparator and its identity
    are the same. -/
structure Continues (u t : Tree key) : Prop where
  less : u.less = t.less
  tag : u.tag = t.tag

theorem Continues.refl (t : Tree key) : t.Continues t :=
  ⟨rfl, rfl⟩

theorem Continues.trans (huv : v.Continues u) (htu : u.Continues t) : v.Continues t :=
  ⟨huv.less.trans htu.less, huv.tag.trans htu.tag⟩

theorem Continues.position (h : u.Continues t) (slot : Option Slot) : u.position slot = t.position slot := by
  rw [Tree.position, Tree.position, h.tag]

theorem Represents.ends (h : t.Represents (before ++ after) o) (slot : Slot) (hgap : t.Gap p before after) :
    t.endsWith slot p.place =
      ((before.map Prod.fst ++ slot :: after.map Prod.fst).head?,
        (before.map Prod.fst ++ slot :: after.map Prod.fst).getLast?) := by
  cases p with
  | nil =>
    obtain rfl : before = [] := by simpa using hgap.before
    obtain rfl : after = [] := by simpa using hgap.after
    rfl
  | cons f up =>
    cases hside : f.side with
    | left =>
      obtain ⟨b, rest, rfl, hb⟩ := hgap.exists_after hside
      have hleft := h.leftmost_eq_some_iff
      have hright := h.rightmost
      simp only [Path.place, hside, endsWith, ← hb, hleft, hright, Prod.mk.injEq]
      constructor
      · cases before with
        | nil => rfl
        | cons first more => simp [h.leftmost]
      · rw [← List.getLast?_map]
        simp [List.getLast?_append, List.getLast?_cons_cons]
    | right =>
      obtain ⟨init, a, rfl, ha⟩ := hgap.exists_before hside
      have hright : t.rightmost = some a.1 ↔ after = [] :=
        rightmost_eq_some_iff (show t.Represents (init ++ a :: after) o by simpa using h)
      simp only [Path.place, hside, endsWith, ← ha, hright, Prod.mk.injEq]
      constructor
      · cases init <;> simp [h.leftmost]
      · cases after using List.reverseRecOn with
        | nil => simp
        | append_singleton rest last => simp [h.rightmost, List.getLast?_append, List.getLast?_cons]

/-- A built node outside the tree becomes the entry at the place where it is
    hung. -/
theorem Represents.attach (h : t.Represents (before ++ after) (o.add slot (some item)))
    (hfree : o.use slot = none) (hgap : t.Gap p before after) :
    ∃ u, t.attach slot p.place = .ok u ∧ u.Continues t ∧ u.Represents (before ++ (slot, item) :: after) o := by
  have hnodup := h.nodup
  have hshape := h.shape
  rw [← hgap.fill] at hnodup hshape
  obtain ⟨r, hrun, hbalanced, hslots⟩ := Shape.attach_spec slot hshape hnodup
  rw [hgap.fill] at hrun
  have hends := h.ends slot hgap
  let slots := before.map Prod.fst ++ slot :: after.map Prod.fst
  refine ⟨{ t with
    shape := r.shape, leftmost := slots.head?, rightmost := slots.getLast?, size := t.size + 1 },
    ?_, ⟨rfl, rfl⟩, ?_⟩
  · simp [Tree.attach, hrun, hends, slots]
  · constructor
    · simpa [hgap.before, hgap.after] using hslots
    · exact h.store.link hfree
    · exact hbalanced
    · rw [← List.head?_map, List.map_append, List.map_cons]
    · rw [← List.getLast?_map, List.map_append, List.map_cons]
    · simp only [h.size, List.length_append, List.length_cons]
      omega

theorem wp_positionOf {slot : Option Slot} {done : Position → Tree key → Prop}
    {stopped : Fault → Tree key → Prop} :
    (positionOf slot : Op key Position).wp done stopped t ↔ done (t.position slot) t :=
  Iff.rfl

theorem wp_owned {q : Position} {done : Option Slot → Tree key → Prop} {stopped : Fault → Tree key → Prop}
    (hq : q.tag = t.tag) : (owned q : Op key (Option Slot)).wp done stopped t ↔ done q.slot t := by
  rw [owned, wp_look_ok]
  rw [own, if_pos hq]

namespace Represents

/-- A tree whose store alone has changed represents whatever that store holds in
    its slots. -/
theorem withStore {o' : Outside α} {store : Store α} (h : t.Represents entries o)
    (hstore : store.Holds entries o') : ({ t with store } : Tree key).Represents entries o' :=
  { h with store := hstore }

theorem allocate (h : t.Represents entries o) :
    (allocate : Op key (Except AllocError Slot)).Yields t fun answer u => u.Continues t ∧ u.shape = t.shape ∧
      ((∃ slot, answer = .ok slot ∧ o.use slot = none ∧ u.Represents entries (o.add slot none)) ∨
        (answer = .error .noSlot ∧ ¬ u.store.HasRoom ∧ u.Represents entries o)) := by
  obtain ⟨slot, store, hrun, _, hfree, hstore⟩ | ⟨store, hrun, hroom, hstore⟩ := h.store.allocate
  · rw [Tree.allocate, Yields, wp_step_ok (by rw [hrun]; rfl)]
    exact ⟨⟨rfl, rfl⟩, rfl, .inl ⟨slot, rfl, hfree, h.withStore hstore⟩⟩
  · rw [Tree.allocate, Yields, wp_step_ok (by rw [hrun]; rfl)]
    exact ⟨⟨rfl, rfl⟩, rfl, .inr ⟨rfl, hroom, h.withStore hstore⟩⟩

theorem construct (h : t.Represents entries (o.add slot none)) (item : α) :
    (construct slot item : Op key Unit).Yields t fun _ u =>
      u.Continues t ∧ u.shape = t.shape ∧ u.Represents entries (o.add slot (some item)) := by
  obtain ⟨store, hrun, hstore⟩ := h.store.construct item
  rw [Tree.construct, Yields, wp_step_ok (by rw [hrun]; rfl)]
  exact ⟨⟨rfl, rfl⟩, rfl, h.withStore hstore⟩

theorem giveBack (h : t.Represents entries (o.add slot none)) (hfree : o.use slot = none) :
    (giveBack slot : Op key Unit).Yields t fun _ u => u.Continues t ∧ u.Represents entries o := by
  obtain ⟨store, hrun, hstore⟩ := h.store.deallocate hfree
  rw [Tree.giveBack, Yields, wp_step_ok (by rw [hrun]; rfl)]
  exact ⟨⟨rfl, rfl⟩, h.withStore hstore⟩

theorem release (h : t.Represents entries (o.add slot (some item))) (hfree : o.use slot = none) :
    (release slot : Op key α).Yields t fun answer u =>
      answer = item ∧ u.Continues t ∧ u.Represents entries o := by
  obtain ⟨store, hrun, hstore⟩ := h.store.deallocate hfree
  rw [Tree.release, Yields, wp_step_ok (by rw [hrun]; rfl)]
  exact ⟨rfl, ⟨rfl, rfl⟩, h.withStore hstore⟩

theorem hang (h : t.Represents (before ++ after) (o.add slot (some item))) (hfree : o.use slot = none)
    (hgap : t.Gap p before after) :
    (hang slot p.place : Op key Position).Yields t fun answer u =>
      answer = t.position (some slot) ∧ u.Continues t ∧ u.Represents (before ++ (slot, item) :: after) o := by
  obtain ⟨u, hrun, hu, hrep⟩ := h.attach hfree hgap
  rw [Tree.hang, Yields, wp_step_ok (by rw [hrun]; rfl)]
  exact ⟨hu.position _, hu, hrep⟩

end Represents

/-- What inserting an item comes to, whatever the comparator orders: an entry
    between neighbours that suit it, or no slot, and then the entries stay as
    they were. -/
inductive Insertion (t : Tree key) (entries : List (Slot × α)) (o : Outside α) (item : α)
    (below above : κ → Prop) : Except AllocError Position → Tree key → Prop where
  | inserted {before after : List (Slot × α)} {slot : Slot} {u : Tree key} :
    entries = before ++ after → (∀ a ∈ before.getLast?, below (key a.2)) →
    (∀ b ∈ after.head?, above (key b.2)) → u.Continues t →
    u.Represents (before ++ (slot, item) :: after) o →
    t.Insertion entries o item below above (.ok (t.position (some slot))) u
  | refused {u : Tree key} : ¬ u.store.HasRoom → u.Continues t → u.Represents entries o →
    t.Insertion entries o item below above (.error .noSlot) u

/-- What inserting an item under unique keys comes to; an entry that is not
    strictly apart from the new item stays the only one of its kind. -/
inductive UniqueInsertion (t : Tree key) (entries : List (Slot × α)) (o : Outside α) (item : α) :
    Except AllocError (Position × Bool) → Tree key → Prop where
  | vacant {answer : Except AllocError Position} {u : Tree key} :
    t.Insertion entries o item (t.less · (key item) = true) (t.less (key item) · = true) answer u →
    t.UniqueInsertion entries o item (answer.map fun p => (p, true)) u
  | occupied {slot : Slot} {other : α} {u : Tree key} : (slot, other) ∈ entries →
    t.less (key other) (key item) = false → t.less (key item) (key other) = false →
    u.Continues t → u.Represents entries o →
    t.UniqueInsertion entries o item (.ok (t.position (some slot), false)) u

/-- What inserting an item among equivalent ones comes to. -/
abbrev EqualInsertion (t : Tree key) (entries : List (Slot × α)) (o : Outside α) (item : α) :
    Except AllocError Position → Tree key → Prop :=
  t.Insertion entries o item (fun a => t.less a (key item) = true ∨ t.less (key item) a = false)
    (fun b => t.less (key item) b = true ∨ t.less b (key item) = false)

/-- What an operation that builds its item comes to, given what the operation on
    the built item does. Where nothing goes in, the slot taken for the item, if
    there was one, has been released. -/
inductive Emplacement (t : Tree key) (entries : List (Slot × α)) (o : Outside α)
    (build : Unit → Except ε α) (insertion : α → Except AllocError ρ → Tree key → Prop) :
    Built ε ρ → Tree key → Prop where
  | refused {u : Tree key} : ¬ u.store.HasRoom → u.Continues t → u.Represents entries o →
    t.Emplacement entries o build insertion { calls := 0, result := .error (.alloc .noSlot) } u
  | unbuilt {error : ε} {u : Tree key} : build () = .error error → u.Continues t → u.Represents entries o →
    t.Emplacement entries o build insertion { calls := 1, result := .error (.construct error) } u
  | built {item : α} {answer : ρ} {u : Tree key} : build () = .ok item → insertion item (.ok answer) u →
    t.Emplacement entries o build insertion { calls := 1, result := .ok answer } u

/-- What holds where nothing was inserted, and where the built item was, holds
    after the operation. -/
theorem Emplacement.left {build : Unit → Except ε α} {insertion : α → Except AllocError ρ → Tree key → Prop}
    {answer : Built ε ρ} {P : Tree key → Prop} (h : t.Emplacement entries o build insertion answer u)
    (hkept : u.Continues t → u.Represents entries o → P u)
    (hinsertion : ∀ item answer, insertion item answer u → P u) : P u := by
  cases h with
  | refused _ hu hrep => exact hkept hu hrep
  | unbuilt _ hu hrep => exact hkept hu hrep
  | built _ hdone => exact hinsertion _ _ hdone

/-- A search under unique keys that comes to a spot in every tree of the given
    entries. -/
def FindsUnique (entries : List (Slot × α)) (search : Tree key → κ → Query κ Vacancy) : Prop :=
  ∀ {t o}, t.Represents entries o → ∀ k, ∃ v, (search t k).answer = .ok v ∧ t.UniqueSpot entries k v

/-- A search among equivalent keys that comes to a spot in every tree of the
    given entries. -/
def FindsEqual (entries : List (Slot × α)) (search : Tree key → κ → Query κ Place) : Prop :=
  ∀ {t o}, t.Represents entries o → ∀ k, ∃ place, (search t k).answer = .ok place ∧ t.EqualSpot entries k place

namespace Represents

theorem fill (h : t.Represents (before ++ after) (o.add slot none)) (hfree : o.use slot = none)
    (hgap : t.Gap p before after) (item : α) :
    (do Tree.construct slot item; return .ok (← Tree.hang slot p.place) :
      Op key (Except AllocError Position)).Yields t fun answer u =>
        answer = .ok (t.position (some slot)) ∧ u.Continues t ∧ u.Represents (before ++ (slot, item) :: after) o := by
  rw [Yields, wp_bind]
  refine (h.construct item).mono ?_
  rintro _ t₁ ⟨ht₁, hshape₁, h₁⟩
  have hgap₁ : t₁.Gap p before after := ⟨by rw [hgap.fill, hshape₁], hgap.before, hgap.after⟩
  rw [wp_bind]
  refine (h₁.hang hfree hgap₁).mono ?_
  rintro _ u ⟨rfl, hu, hrep⟩
  rw [ht₁.position]
  exact ⟨rfl, hu.trans ht₁, hrep⟩

theorem insertAt {place : Place} (h : t.Represents entries o) (item : α)
    (hvacant : t.VacantBetween entries below above place) :
    (insertAt item place).Yields t (t.Insertion entries o item below above) := by
  obtain ⟨p, before, after, rfl, hgap, rfl, hbelow, habove⟩ := hvacant
  rw [Tree.insertAt, Yields, wp_bind]
  refine h.allocate.mono ?_
  rintro _ t₁ ⟨ht₁, hshape₁, ⟨slot, rfl, hfree, h₁⟩ | ⟨rfl, hroom, h₁⟩⟩
  · have hgap₁ : t₁.Gap p before after := ⟨by rw [hgap.fill, hshape₁], hgap.before, hgap.after⟩
    refine (h₁.fill hfree hgap₁ item).mono ?_
    rintro _ u ⟨rfl, hu, hrep⟩
    rw [ht₁.position]
    exact .inserted rfl hbelow habove (hu.trans ht₁) hrep
  · exact .refused hroom ht₁ h₁

theorem insertUniqueBy {search : Tree key → κ → Query κ Vacancy} (h : t.Represents entries o) (item : α)
    (hsearch : FindsUnique entries search) :
    (insertUniqueBy search item).Yields t (t.UniqueInsertion entries o item) := by
  obtain ⟨v, hv, hspot⟩ := hsearch h (key item)
  rw [Tree.insertUniqueBy, Yields, wp_bind, wp_ask_ok (s := t) hv]
  cases hspot with
  | vacant hvacant =>
    simp only [wp_bind]
    exact (h.insertAt item hvacant).mono fun _ _ hdone => .vacant hdone
  | occupied hmem hbelow habove => exact .occupied hmem hbelow habove (.refl t) h

theorem insertEqualBy {search : Tree key → κ → Query κ Place} (h : t.Represents entries o) (item : α)
    (hsearch : FindsEqual entries search) :
    (insertEqualBy search item).Yields t (t.EqualInsertion entries o item) := by
  obtain ⟨place, hplace, hspot⟩ := hsearch h (key item)
  rw [Tree.insertEqualBy, Yields, wp_bind, wp_ask_ok (s := t) hplace]
  exact h.insertAt item hspot

/-- A node that cannot be built leaves nothing behind; one that is built hangs
    nowhere yet. -/
theorem buildNode (h : t.Represents entries o) (build : Unit → Except ε α) :
    (buildNode build : Op key _).Yields t fun b u => u.Continues t ∧
      ((b = { calls := 0, result := .error (.alloc .noSlot) } ∧ ¬ u.store.HasRoom ∧ u.Represents entries o) ∨
        (∃ error, build () = .error error ∧ b = { calls := 1, result := .error (.construct error) } ∧
          u.Represents entries o) ∨
        ∃ slot item, build () = .ok item ∧ b = { calls := 1, result := .ok (slot, item) } ∧
          o.use slot = none ∧ u.Represents entries (o.add slot (some item))) := by
  rw [Tree.buildNode, Yields, wp_bind]
  refine h.allocate.mono ?_
  rintro _ t₁ ⟨ht₁, _, ⟨slot, rfl, hfree, h₁⟩ | ⟨rfl, hroom, h₁⟩⟩
  · cases hbuild : build () with
    | error error =>
      simp only [Built.call_of_error hbuild, wp_bind]
      refine (h₁.giveBack hfree).mono ?_
      rintro _ u ⟨hu, h₂⟩
      exact ⟨hu.trans ht₁, .inr (.inl ⟨error, rfl, rfl, h₂⟩)⟩
    | ok item =>
      simp only [Built.call_of_ok hbuild, wp_bind]
      refine (h₁.construct item).mono ?_
      rintro _ u ⟨hu, _, h₂⟩
      exact ⟨hu.trans ht₁, .inr (.inr ⟨slot, item, rfl, rfl, hfree, h₂⟩)⟩
  · exact ⟨ht₁, .inl ⟨rfl, hroom, h₁⟩⟩

theorem insertUniqueWithBy {search : Tree key → κ → Query κ Vacancy} (h : t.Represents entries o)
    (build : Unit → Except ε α) (hsearch : FindsUnique entries search) :
    (insertUniqueWithBy search build).Yields t
      (t.Emplacement entries o build (t.UniqueInsertion entries o)) := by
  rw [Tree.insertUniqueWithBy, Yields, wp_bind]
  refine (h.buildNode build).mono ?_
  rintro _ t₁ ⟨ht₁, ⟨rfl, hroom, h₁⟩ | ⟨error, hbuild, rfl, h₁⟩ | ⟨slot, item, hbuild, rfl, hfree, h₁⟩⟩
  · exact .refused hroom ht₁ h₁
  · exact .unbuilt hbuild ht₁ h₁
  · obtain ⟨v, hv, hspot⟩ := hsearch h₁ (key item)
    simp only [wp_bind]
    rw [wp_ask_ok (s := t₁) hv]
    cases hspot with
    | vacant hvacant =>
      obtain ⟨p, before, after, rfl, hgap, rfl, hbelow, habove⟩ := hvacant
      simp only [wp_bind]
      refine (h₁.hang hfree hgap).mono ?_
      rintro _ u ⟨rfl, hu, hrep⟩
      rw [ht₁.position]
      rw [ht₁.less] at hbelow habove
      exact .built hbuild (.vacant (.inserted rfl hbelow habove (hu.trans ht₁) hrep))
    | occupied hmem hbelow habove =>
      simp only [wp_bind]
      refine (h₁.release hfree).mono ?_
      rintro _ u ⟨_, hu, hrep⟩
      have hposition := (hu.trans ht₁).position
      rw [wp_bind]
      rw [ht₁.less] at hbelow habove
      rw [wp_positionOf, hposition]
      exact .built hbuild (.occupied hmem hbelow habove (hu.trans ht₁) hrep)

theorem insertEqualWithBy {search : Tree key → κ → Query κ Place} (h : t.Represents entries o)
    (build : Unit → Except ε α) (hsearch : FindsEqual entries search) :
    (insertEqualWithBy search build).Yields t
      (t.Emplacement entries o build (t.EqualInsertion entries o)) := by
  rw [Tree.insertEqualWithBy, Yields, wp_bind]
  refine (h.buildNode build).mono ?_
  rintro _ t₁ ⟨ht₁, ⟨rfl, hroom, h₁⟩ | ⟨error, hbuild, rfl, h₁⟩ | ⟨slot, item, hbuild, rfl, hfree, h₁⟩⟩
  · exact .refused hroom ht₁ h₁
  · exact .unbuilt hbuild ht₁ h₁
  · obtain ⟨place, hplace, p, before, after, rfl, hgap, rfl, hbelow, habove⟩ := hsearch h₁ (key item)
    simp only [wp_bind]
    rw [wp_ask_ok (s := t₁) hplace, wp_bind]
    refine (h₁.hang hfree hgap).mono ?_
    rintro _ u ⟨rfl, hu, hrep⟩
    rw [ht₁.position]
    rw [ht₁.less] at hbelow habove
    exact .built hbuild (.inserted rfl hbelow habove (hu.trans ht₁) hrep)

theorem slot_mem {q : Position} (h : t.Represents entries o) (hq : t.LiveOrEnd q) :
    ∀ slot, q.slot = some slot → slot ∈ entries.map Prod.fst := by
  rw [← h.slots]
  exact hq.2

end Represents

section Searches

theorem findsUnique_plain (entries : List (Slot × α)) :
    FindsUnique entries (fun (t : Tree key) k => t.uniquePlace k) :=
  fun h k => h.uniquePlace k

theorem findsEqual_plain (entries : List (Slot × α)) (bound : Bound) :
    FindsEqual entries fun (t : Tree key) k => t.equalPlace bound k :=
  fun h k => h.equalPlace bound k

variable {hint : Option Slot} (hhint : ∀ slot, hint = some slot → slot ∈ entries.map Prod.fst)
include hhint

theorem findsUnique_hinted : FindsUnique entries fun (t : Tree key) k => t.hintedUniquePlace hint k := by
  intro t o h k
  exact h.hintedUniquePlace (by rwa [h.slots]) k

theorem findsEqual_hinted : FindsEqual entries fun (t : Tree key) k => t.hintedEqualPlace hint k := by
  intro t o h k
  exact h.hintedEqualPlace (by rwa [h.slots]) k

end Searches

namespace Represents

variable {hint : Position} (h : t.Represents entries o) (item : α) (build : Unit → Except ε α)
include h

theorem insertUnique : (insertUnique item).Yields t (t.UniqueInsertion entries o item) :=
  h.insertUniqueBy item (findsUnique_plain entries)

theorem insertEqual : (insertEqual item).Yields t (t.EqualInsertion entries o item) :=
  h.insertEqualBy item (findsEqual_plain entries .upper)

/-- Told nothing else, an item goes behind all those that it does not come
    before. -/
theorem insertEqual_upper : (Tree.insertEqual item).Yields t
    (t.Insertion entries o item (t.less (key item) · = false) (t.less (key item) · = true)) := by
  obtain ⟨place, hplace, p, before, after, rfl, hgap, rfl, hbefore, hafter⟩ := h.equalPlace_bound .upper (key item)
  rw [Tree.insertEqual, Tree.insertEqualBy, Yields, wp_bind, wp_ask_ok (s := t) hplace]
  refine h.insertAt item ⟨p, before, after, rfl, hgap, rfl, ?_, ?_⟩
  · intro a ha
    simpa [Bound.side] using hbefore a ha
  · intro b hb
    simpa [Bound.side] using hafter b hb

theorem insertUniqueHint (hhint : t.LiveOrEnd hint) :
    (insertUniqueHint hint item).Yields t (t.UniqueInsertion entries o item) := by
  rw [Tree.insertUniqueHint, Yields, wp_bind, wp_owned hhint.1]
  exact h.insertUniqueBy item (findsUnique_hinted (h.slot_mem hhint))

theorem insertEqualHint (hhint : t.LiveOrEnd hint) :
    (insertEqualHint hint item).Yields t (t.EqualInsertion entries o item) := by
  rw [Tree.insertEqualHint, Yields, wp_bind, wp_owned hhint.1]
  exact h.insertEqualBy item (findsEqual_hinted (h.slot_mem hhint))

theorem insertUniqueWith : (insertUniqueWith build).Yields t
    (t.Emplacement entries o build (t.UniqueInsertion entries o)) :=
  h.insertUniqueWithBy build (findsUnique_plain entries)

theorem insertEqualWith : (insertEqualWith build).Yields t
    (t.Emplacement entries o build (t.EqualInsertion entries o)) :=
  h.insertEqualWithBy build (findsEqual_plain entries .upper)

theorem insertUniqueHintWith (hhint : t.LiveOrEnd hint) : (insertUniqueHintWith hint build).Yields t
    (t.Emplacement entries o build (t.UniqueInsertion entries o)) := by
  rw [Tree.insertUniqueHintWith, Yields, wp_bind, wp_owned hhint.1]
  exact h.insertUniqueWithBy build (findsUnique_hinted (h.slot_mem hhint))

theorem insertEqualHintWith (hhint : t.LiveOrEnd hint) : (insertEqualHintWith hint build).Yields t
    (t.Emplacement entries o build (t.EqualInsertion entries o)) := by
  rw [Tree.insertEqualHintWith, Yields, wp_bind, wp_owned hhint.1]
  exact h.insertEqualWithBy build (findsEqual_hinted (h.slot_mem hhint))

end Represents

end Tree

end RedBlack
