import RedBlack.Proofs.Order

namespace RedBlack

namespace Tree

open RedBlack.Action

/-- A request to a tree; `ε` is the error of constructors. -/
inductive Command (α κ ε : Type) where
  | insertUnique (item : α)
  | insertEqual (item : α)
  | insertUniqueHint (hint : Position) (item : α)
  | insertEqualHint (hint : Position) (item : α)
  | insertUniqueWith (build : Unit → Except ε α)
  | insertEqualWith (build : Unit → Except ε α)
  | insertUniqueHintWith (hint : Position) (build : Unit → Except ε α)
  | insertEqualHintWith (hint : Position) (build : Unit → Except ε α)
  | find (k : κ)
  | contains (k : κ)
  | lowerBound (k : κ)
  | upperBound (k : κ)
  | erase (p : Position)
  | remove (p : Position)
  | eraseRange (first last : Position)
  | eraseKey (k : κ)
  | popFirst
  | popLast
  | clear

/-- The answer to a request. -/
inductive Reply (α ε : Type) where
  | unique (answer : Except AllocError (Position × Bool))
  | equal (answer : Except AllocError Position)
  | uniqueWith (answer : Built ε (Position × Bool))
  | equalWith (answer : Built ε Position)
  | position (p : Position)
  | contained (answer : Bool)
  | erased (item : α) (next : Position)
  | removed (item : α)
  | count (n : Nat)
  | popped (item : Option α)
  | done

namespace Command

variable {α κ ε : Type} {key : α → κ}

/-- What a tree does on a request. -/
def run : Command α κ ε → Op key (Reply α ε)
  | insertUnique item => .unique <$> Tree.insertUnique item
  | insertEqual item => .equal <$> Tree.insertEqual item
  | insertUniqueHint hint item => .unique <$> Tree.insertUniqueHint hint item
  | insertEqualHint hint item => .equal <$> Tree.insertEqualHint hint item
  | insertUniqueWith build => .uniqueWith <$> Tree.insertUniqueWith build
  | insertEqualWith build => .equalWith <$> Tree.insertEqualWith build
  | insertUniqueHintWith hint build => .uniqueWith <$> Tree.insertUniqueHintWith hint build
  | insertEqualHintWith hint build => .equalWith <$> Tree.insertEqualHintWith hint build
  | find k => .position <$> .ask fun t => t.find k
  | contains k => .contained <$> .ask fun t => t.contains k
  | lowerBound k => .position <$> .ask fun t => t.lowerBound k
  | upperBound k => .position <$> .ask fun t => t.upperBound k
  | erase p => (fun answer => .erased answer.1 answer.2) <$> Tree.erase p
  | remove p => .removed <$> Tree.remove p
  | eraseRange first last => .position <$> Tree.eraseRange first last
  | eraseKey k => .count <$> Tree.eraseKey k
  | popFirst => .popped <$> Tree.popFirst
  | popLast => .popped <$> Tree.popLast
  | clear => (fun _ => .done) <$> Tree.clear

/-- The positions of a request are such as the tree may be given: a hint is live
    or the end, what is to be erased is live, and a range does not run
    backwards. -/
def Legal (t : Tree key) : Command α κ ε → Prop
  | insertUniqueHint hint _ | insertEqualHint hint _ => t.LiveOrEnd hint
  | insertUniqueHintWith hint _ | insertEqualHintWith hint _ => t.LiveOrEnd hint
  | erase p | remove p => t.Live p
  | eraseRange first last => t.InOrder first last
  | _ => True

/-- Whether a request may ask the store for a slot. -/
def Inserts : Command α κ ε → Prop
  | insertUnique _ | insertEqual _ | insertUniqueHint _ _ | insertEqualHint _ _ => True
  | insertUniqueWith _ | insertEqualWith _ | insertUniqueHintWith _ _ | insertEqualHintWith _ _ => True
  | _ => False

/-- A request that makes sense only with a comparator that orders: it takes the
    bounds of a key for a range. -/
def NeedsOrder : Command α κ ε → Prop
  | eraseKey _ => True
  | _ => False

end Command

/-- How one request may change the entries: not at all, by one more entry
    between neighbours that suit it, or by leaving some out. What all reachable
    trees have in common follows from that alone. -/
inductive Change {α κ : Type} (less : κ → κ → Bool) (key : α → κ) (entries : List (Slot × α)) :
    List (Slot × α) → Prop where
  | kept : Change less key entries entries
  | grown {before after : List (Slot × α)} {new : Slot × α} : entries = before ++ after →
    (∀ a ∈ before.getLast?, less (key a.2) (key new.2) = true ∨ less (key new.2) (key a.2) = false) →
    (∀ b ∈ after.head?, less (key new.2) (key b.2) = true ∨ less (key b.2) (key new.2) = false) →
    Change less key entries (before ++ new :: after)
  | shrunk {rest : List (Slot × α)} : rest.Sublist entries → Change less key entries rest

variable {α κ ε ρ : Type} {key : α → κ} {t u : Tree key} {entries : List (Slot × α)} {o : Outside α}
  {item : α} {build : Unit → Except ε α}

theorem Change.sorted {less : κ → κ → Bool} {after : List (Slot × α)} (hless : StrictWeak less)
    (hsorted : Sorted less key entries) (h : Change less key entries after) : Sorted less key after := by
  have hnot {a b : κ} (hor : less a b = true ∨ less b a = false) : less b a = false := by
    obtain hlt | hle := hor
    · exact hless.asymm hlt
    · exact hle
  cases h with
  | kept => exact hsorted
  | grown hsplit hbefore hafter =>
    subst hsplit
    exact hsorted.insert hless (fun a ha => hnot (hbefore a ha)) fun b hb => hnot (hafter b hb)
  | shrunk hsub => exact hsorted.sublist hsub

/-- The tree is in a later state of the given one, with entries that one request
    may have left. -/
def ChangedFrom (t : Tree key) (entries : List (Slot × α)) (o : Outside α) (u : Tree key) : Prop :=
  u.Continues t ∧ ∃ after, u.Represents after o ∧ Change t.less key entries after

theorem ChangedFrom.kept (hu : u.Continues t) (h : u.Represents entries o) : t.ChangedFrom entries o u :=
  ⟨hu, entries, h, .kept⟩

theorem ShrunkFrom.changedFrom (h : t.ShrunkFrom entries o u) : t.ChangedFrom entries o u := by
  obtain ⟨hu, rest, hsub, hrep⟩ := h
  exact ⟨hu, rest, hrep, .shrunk hsub⟩

theorem Insertion.changedFrom {below above : κ → Prop} {answer : Except AllocError Position}
    (h : t.Insertion entries o item below above answer u)
    (hbelow : ∀ a, below a → t.less a (key item) = true ∨ t.less (key item) a = false)
    (habove : ∀ b, above b → t.less (key item) b = true ∨ t.less b (key item) = false) :
    t.ChangedFrom entries o u := by
  cases h with
  | inserted hsplit hbefore hafter hu hrep =>
    exact ⟨hu, _, hrep, .grown hsplit (fun a ha => hbelow _ (hbefore a ha)) fun b hb => habove _ (hafter b hb)⟩
  | refused _ hu hrep => exact .kept hu hrep

theorem UniqueInsertion.changedFrom {answer : Except AllocError (Position × Bool)}
    (h : t.UniqueInsertion entries o item answer u) : t.ChangedFrom entries o u := by
  cases h with
  | vacant hinsertion => exact hinsertion.changedFrom (fun _ => .inl) fun _ => .inl
  | occupied _ _ _ hu hrep => exact .kept hu hrep

theorem EqualInsertion.changedFrom {answer : Except AllocError Position}
    (h : t.EqualInsertion entries o item answer u) : t.ChangedFrom entries o u :=
  Insertion.changedFrom h (fun _ h => h) fun _ h => h

theorem Emplacement.changedFrom {insertion : α → Except AllocError ρ → Tree key → Prop} {answer : Built ε ρ}
    (h : t.Emplacement entries o build insertion answer u)
    (hinsertion : ∀ item answer u, insertion item answer u → t.ChangedFrom entries o u) :
    t.ChangedFrom entries o u :=
  h.left .kept fun _ _ hdone => hinsertion _ _ _ hdone

theorem wp_ask_kept {question : Tree key → Query κ ρ} {f : ρ → Reply α ε} {answer : ρ}
    (h : t.Represents entries o) (hanswer : (question t).answer = .ok answer) :
    (f <$> ask question : Op key (Reply α ε)).Yields t fun _ u => t.ShrunkFrom entries o u := by
  rw [Yields, wp_map, wp_ask_ok hanswer]
  exact .kept (.refl t) h

/-- Every legal request that inserts nothing is answered, and the entries that
    it leaves were there before. -/
theorem Represents.command_shrinks (h : t.Represents entries o) {c : Command α κ ε} (hc : ¬ c.Inserts)
    (hlegal : c.Legal t) (horder : c.NeedsOrder → StrictWeak t.less) :
    (c.run : Op key (Reply α ε)).Yields t fun _ u => t.ShrunkFrom entries o u := by
  cases c with
  | find k =>
    obtain ⟨_, _, _, hanswer, _⟩ := h.find k
    exact wp_ask_kept h hanswer
  | contains k =>
    obtain ⟨_, _, _, hanswer, _⟩ := h.contains k
    exact wp_ask_kept h hanswer
  | lowerBound k =>
    obtain ⟨_, _, _, hanswer, _⟩ := h.lowerBound k
    exact wp_ask_kept h hanswer
  | upperBound k =>
    obtain ⟨_, _, _, hanswer, _⟩ := h.upperBound k
    exact wp_ask_kept h hanswer
  | erase p =>
    obtain ⟨htag, slot, hmem, hslot⟩ := hlegal
    obtain ⟨before, item, after, rfl⟩ := h.exists_entry hmem
    rw [Command.run, Yields, wp_map]
    refine (h.erase htag hslot).mono ?_
    rintro _ u ⟨_, hu, hrep⟩
    exact ⟨hu, _, by simp, hrep⟩
  | remove p =>
    obtain ⟨htag, slot, hmem, hslot⟩ := hlegal
    obtain ⟨before, item, after, rfl⟩ := h.exists_entry hmem
    rw [Command.run, Yields, wp_map]
    refine (h.remove htag hslot).mono ?_
    rintro _ u ⟨_, hu, hrep⟩
    exact ⟨hu, _, by simp, hrep⟩
  | eraseRange first last =>
    obtain ⟨before, between, after, rfl, hfirst, hlast, hlower, hupper⟩ := h.range_of_inOrder hlegal
    rw [Command.run, Yields, wp_map]
    refine (h.eraseRange hfirst hlast hlower hupper).mono ?_
    rintro _ u ⟨_, hu, hrep⟩
    exact ⟨hu, _, by simp, hrep⟩
  | eraseKey k =>
    rw [Command.run, Yields, wp_map]
    refine (h.eraseKey (horder trivial) k).mono ?_
    rintro _ u ⟨before, between, after, rfl, _, _, _, hu, hrep⟩
    exact ⟨hu, _, by simp, hrep⟩
  | popFirst =>
    rw [Command.run, Yields, wp_map]
    refine h.popFirst.mono ?_
    rintro _ u ⟨_, hu, hrep⟩
    exact ⟨hu, _, List.tail_sublist _, hrep⟩
  | popLast =>
    rw [Command.run, Yields, wp_map]
    refine h.popLast.mono ?_
    rintro _ u ⟨_, hu, hrep⟩
    exact ⟨hu, _, List.dropLast_sublist _, hrep⟩
  | clear =>
    rw [Command.run, Yields, wp_map]
    refine h.clear.mono ?_
    rintro _ u ⟨hu, hrep⟩
    exact ⟨hu, _, List.nil_sublist _, hrep⟩
  | _ => exact absurd trivial hc

/-- Every legal request is answered, and changes the entries in one of the three
    ways. -/
theorem Represents.command (h : t.Represents entries o) {c : Command α κ ε} (hlegal : c.Legal t)
    (horder : c.NeedsOrder → StrictWeak t.less) :
    (c.run : Op key (Reply α ε)).Yields t fun _ u => t.ChangedFrom entries o u := by
  cases c with
  | insertUnique item =>
    rw [Command.run, Yields, wp_map]
    exact (h.insertUnique item).mono fun _ _ hdone => hdone.changedFrom
  | insertEqual item =>
    rw [Command.run, Yields, wp_map]
    exact (h.insertEqual item).mono fun _ _ hdone => EqualInsertion.changedFrom hdone
  | insertUniqueHint hint item =>
    rw [Command.run, Yields, wp_map]
    exact (h.insertUniqueHint item hlegal).mono fun _ _ hdone => hdone.changedFrom
  | insertEqualHint hint item =>
    rw [Command.run, Yields, wp_map]
    exact (h.insertEqualHint item hlegal).mono fun _ _ hdone => EqualInsertion.changedFrom hdone
  | insertUniqueWith build =>
    rw [Command.run, Yields, wp_map]
    exact (h.insertUniqueWith build).mono fun _ _ hdone =>
      hdone.changedFrom fun _ _ _ hins => hins.changedFrom
  | insertEqualWith build =>
    rw [Command.run, Yields, wp_map]
    exact (h.insertEqualWith build).mono fun _ _ hdone =>
      hdone.changedFrom fun _ _ _ hins => EqualInsertion.changedFrom hins
  | insertUniqueHintWith hint build =>
    rw [Command.run, Yields, wp_map]
    exact (h.insertUniqueHintWith build hlegal).mono fun _ _ hdone =>
      hdone.changedFrom fun _ _ _ hins => hins.changedFrom
  | insertEqualHintWith hint build =>
    rw [Command.run, Yields, wp_map]
    exact (h.insertEqualHintWith build hlegal).mono fun _ _ hdone =>
      hdone.changedFrom fun _ _ _ hins => EqualInsertion.changedFrom hins
  | _ => exact (h.command_shrinks id hlegal horder).mono fun _ _ hdone => hdone.changedFrom

theorem Represents.liveOrEnd {before after : List (Slot × α)} (h : t.Represents (before ++ after) o) :
    t.LiveOrEnd (t.position (after.head?.map Prod.fst)) := by
  refine ⟨rfl, ?_⟩
  intro slot hslot
  obtain ⟨e, he, rfl⟩ := Option.map_eq_some_iff.mp hslot
  rw [h.slots]
  exact List.mem_map_of_mem (List.mem_append_right _ (List.mem_of_mem_head? he))

/-- A comparator that is no order may make the range of a key run backwards;
    then erasing it stops. -/
theorem Represents.eraseKey_shrinks (h : t.Represents entries o) (k : κ) :
    (Tree.eraseKey k : Op key Nat).wp (fun _ => t.ShrunkFrom entries o) (fun _ => t.ShrunkFrom entries o) t := by
  obtain ⟨before, rest, rfl, hlower, _⟩ := h.lowerBound k
  obtain ⟨upTo, after, _, hupper, _⟩ := h.upperBound k
  have hrange : (t.equalRange k).answer = .ok (t.position (rest.head?.map Prod.fst),
      t.position (after.head?.map Prod.fst)) := by
    simp [Tree.equalRange, hlower, hupper]
  rw [Tree.eraseKey, wp_bind, wp_ask_ok (s := t) hrange]
  simp only
  rw [wp_bind, wp_view, wp_bind]
  refine wp_mono (h.eraseRange_shrinks h.liveOrEnd rfl) ?_ fun _ _ hleft => hleft
  intro _ u hu
  rw [wp_look]
  split <;> exact hu

/-- Under any comparator a legal request leaves a tree, also where it stops. -/
theorem Represents.command_stopped (h : t.Represents entries o) {c : Command α κ ε} (hlegal : c.Legal t) :
    (c.run : Op key (Reply α ε)).wp (fun _ u => t.ChangedFrom entries o u)
      (fun _ u => t.ChangedFrom entries o u) t := by
  by_cases horder : c.NeedsOrder
  · cases c <;> try exact horder.elim
    rw [Command.run, wp_map]
    exact wp_mono (h.eraseKey_shrinks _) (fun _ _ hleft => hleft.changedFrom) fun _ _ hleft => hleft.changedFrom
  · exact (h.command hlegal fun hneeds => absurd hneeds horder).mono fun _ _ hdone => hdone

end Tree

end RedBlack
