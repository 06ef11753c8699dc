import Mathlib.Data.List.Nodup
import RedBlack.Proofs.Forest
import RedBlack.Proofs.Tree.Foreign

namespace RedBlack

/-- Who a tree is: its number in the order in which trees came into being, and
    the comparator that it was given. -/
structure Identity (κ : Type) where
  number : Nat
  less : κ → κ → Bool

/-- What happened to a collection of trees: who lives at which place, how many
    trees have come into being, and who gave which position. It knows nothing of
    tags. -/
structure Register (κ : Type) where
  /-- How many trees came into being. -/
  created : Nat := 0
  /-- Who lives at each place. -/
  residents : List (Identity κ) := []
  /-- The positions given out, and the number of the tree that gave each. -/
  issued : List (Position × Nat) := []

namespace Register

variable {κ : Type} (r : Register κ)

/-- The next tree to come into being. -/
def newcomer (less : κ → κ → Bool) : Identity κ where
  number := r.created
  less := less

/-- A new tree lives behind the others. -/
def welcome (less : κ → κ → Bool) : Register κ :=
  { r with created := r.created + 1, residents := r.residents ++ [r.newcomer less] }

/-- A new tree lives in the place of another one, which is gone. -/
def succeed (i : Nat) (less : κ → κ → Bool) : Register κ :=
  { r with created := r.created + 1, residents := r.residents.set i (r.newcomer less) }

/-- A tree came into being and is gone already. -/
def lose : Register κ :=
  { r with created := r.created + 1 }

/-- Two residents change places. A tree may be exchanged with itself, which
    leaves everybody where they are. -/
def exchange (i j : Nat) (n m : Identity κ) : Register κ :=
  { r with residents := (r.residents.set i m).set j n }

/-- A resident is gone, and those behind it move up. -/
def remove (i : Nat) : Register κ :=
  { r with residents := r.residents.eraseIdx i }

/-- A tree gives positions out. -/
def issue (n : Identity κ) (ps : List Position) : Register κ :=
  { r with issued := r.issued ++ ps.map fun p => (p, n.number) }

end Register

namespace Forest

open RedBlack.Action

variable {α κ ε ρ : Type} {key : α → κ}

/-- The runs over collections of trees, each with the register of what happened.
    Requests may name any position, from whichever tree it came and whether its
    item is still there; what stops on the way counts as well. -/
inductive Recorded : Forest key → Register κ → Prop where
  | empty : Recorded (.empty key) {}
  | plant {f : Forest key} {r : Register κ} (less : κ → κ → Bool) (store : Store α) : Recorded f r →
    Recorded ((plant less store).run f).state (r.welcome less)
  | request {f : Forest key} {r : Register κ} {i : Nat} {t : Tree key} {n : Identity κ} {ε : Type}
    (q : Tree.Request α κ ε) : Recorded f r → f.trees[i]? = some t → r.residents[i]? = some n →
    Recorded ((onTree i q.run).run f).state (r.issue n (Tree.shown ((onTree i q.run).run f).answer))
  | modify {f : Forest key} {r : Register κ} {i : Nat} {t : Tree key} (p : Position) (change : α → α) :
    Recorded f r → f.trees[i]? = some t → Recorded ((onTree i (Tree.modify p change)).run f).state r
  | setBudget {f : Forest key} {r : Register κ} {i : Nat} {t : Tree key} (budget : Nat) :
    Recorded f r → f.trees[i]? = some t →
    Recorded ((Command.setBudget i budget : Command α κ Empty).run.run f).state r
  | swap {f : Forest key} {r : Register κ} {i j : Nat} {n m : Identity κ} : Recorded f r →
    r.residents[i]? = some n → r.residents[j]? = some m → Recorded ((swap i j).run f).state (r.exchange i j n m)
  | copy {f : Forest key} {r : Register κ} {i : Nat} {n : Identity κ} {ε : Type} {make : Nat → α → Except ε α}
    {store : Store α} {replica : Replica key ε} {copy : Tree key} : Recorded f r → r.residents[i]? = some n →
    ((copyWith make i store).run f).answer = .ok replica → replica.result = .ok copy →
    Recorded { ((copyWith make i store).run f).state with
      trees := ((copyWith make i store).run f).state.trees.push copy } (r.welcome n.less)
  | copyFailed {f : Forest key} {r : Register κ} {i : Nat} {n : Identity κ} {ε : Type} {make : Nat → α → Except ε α}
    {store : Store α} : Recorded f r → r.residents[i]? = some n →
    (∀ replica copy, ((copyWith make i store).run f).answer = .ok replica → replica.result ≠ .ok copy) →
    Recorded ((copyWith make i store).run f).state r.lose
  | clone {f : Forest key} {r : Register κ} {i j : Nat} {t : Tree key} {n : Identity κ} {store : Store α}
    {copy : Tree key} : Recorded f r → f.trees[i]? = some t → r.residents[i]? = some n → j < f.trees.size →
    t.clone store f.nextTag = .ok copy → Recorded ((clone i j store).run f).state (r.succeed j n.less)
  | cloneFailed {f : Forest key} {r : Register κ} {i j : Nat} {t : Tree key} {store : Store α} : Recorded f r →
    f.trees[i]? = some t → (∀ copy, t.clone store f.nextTag ≠ .ok copy) →
    Recorded ((clone i j store).run f).state r.lose
  | renew {f : Forest key} {r : Register κ} {i : Nat} (less : κ → κ → Bool) (store : Store α) : Recorded f r →
    i < f.trees.size → Recorded ((renew i less store).run f).state (r.succeed i less)
  | uproot {f : Forest key} {r : Register κ} {i : Nat} (less : κ → κ → Bool) (store : Store α) : Recorded f r →
    i < f.trees.size → Recorded ((uproot i less store).run f).state (r.succeed i less)
  | drop {f : Forest key} {r : Register κ} (i : Nat) : Recorded f r →
    Recorded { f with trees := f.trees.eraseIdxIfInBounds i } (r.remove i)

variable {f g : Forest key} {r : Register κ} {t u : Tree key} {n m : Identity κ} {i j : Nat} {p : Position}
  {less : κ → κ → Bool} {store : Store α}

/-- What is seen of a tree: its tag and its comparator. -/
def mark (t : Tree key) : UInt64 × (κ → κ → Bool) :=
  (t.tag, t.less)

/-- The tag of the tree with a number. -/
def tagOf (number : Nat) : UInt64 :=
  .ofNat (number + 1)

/-- What is to be seen of a tree with this identity. -/
def expected (n : Identity κ) : UInt64 × (κ → κ → Bool) :=
  (tagOf n.number, n.less)

/-- The tags of trees and positions say the same as the register. Every step has
    a lemma of its own here, since the register names who moves where, and the
    whole run follows by induction. -/
structure Tracks (f : Forest key) (r : Register κ) : Prop where
  nextTag : f.nextTag = tagOf r.created
  marks : f.trees.toList.map mark = r.residents.map expected
  distinct : (r.residents.map Identity.number).Nodup
  created : ∀ n ∈ r.residents, n.number < r.created
  issued : ∀ x ∈ r.issued, x.2 < r.created ∧ x.1.tag = tagOf x.2

theorem tagOf_succ (number : Nat) : tagOf number + 1 = tagOf (number + 1) := by
  rw [tagOf, tagOf, UInt64.ofNat_add (number + 1) 1]
  rfl

/-- Different trees have different tags as long as there are numbers for
    them. -/
theorem tagOf_inj {a b : Nat} (ha : a + 1 < UInt64.size) (hb : b + 1 < UInt64.size) : tagOf a = tagOf b ↔ a = b := by
  constructor
  · intro h
    have hnat := congrArg UInt64.toNat h
    rw [tagOf, tagOf, UInt64.toNat_ofNat_of_lt' ha, UInt64.toNat_ofNat_of_lt' hb] at hnat
    omega
  · rintro rfl
    rfl

namespace Tracks

variable (h : Tracks f r)
include h

theorem size : f.trees.size = r.residents.length := by
  simpa using congrArg List.length h.marks

theorem mark_eq (ht : f.trees[i]? = some t) (hn : r.residents[i]? = some n) : mark t = expected n := by
  have hi := congrArg (·[i]?) h.marks
  simpa [ht, hn] using hi

theorem tag_eq (ht : f.trees[i]? = some t) (hn : r.residents[i]? = some n) : t.tag = tagOf n.number :=
  congrArg Prod.fst (h.mark_eq ht hn)

theorem less_eq (ht : f.trees[i]? = some t) (hn : r.residents[i]? = some n) : t.less = n.less :=
  congrArg Prod.snd (h.mark_eq ht hn)

theorem exists_tree (hn : r.residents[i]? = some n) : ∃ t, f.trees[i]? = some t := by
  have hi : i < f.trees.size := by
    rw [h.size]
    exact (List.getElem?_eq_some_iff.mp hn).1
  exact ⟨_, Array.getElem?_eq_getElem hi⟩

/-- A change to the items of a tree changes nothing that is seen of it. -/
theorem set (ht : f.trees[i]? = some t) (hu : u.Continues t) :
    Tracks { f with trees := f.trees.setIfInBounds i u } r where
  nextTag := h.nextTag
  distinct := h.distinct
  created := h.created
  issued := h.issued
  marks := by
    have hmark : mark u = mark t := Prod.ext hu.tag hu.less
    have hi : (f.trees.toList.map mark)[i]? = some (mark t) := by simp [ht]
    obtain ⟨hlength, heq⟩ := List.getElem?_eq_some_iff.mp hi
    rw [Array.toList_setIfInBounds, List.map_set, hmark, ← h.marks, ← heq, List.set_getElem_self]

/-- The residents are others than the next tree to come into being. -/
theorem newcomer_new : r.created ∉ r.residents.map Identity.number := by
  intro hmem
  obtain ⟨n, hn, hnumber⟩ := List.mem_map.mp hmem
  exact Nat.ne_of_lt (h.created n hn) hnumber

theorem issued_succ (x : Position × Nat) (hx : x ∈ r.issued) : x.2 < r.created + 1 ∧ x.1.tag = tagOf x.2 :=
  ⟨Nat.lt_succ_of_lt (h.issued x hx).1, (h.issued x hx).2⟩

theorem lose : Tracks { f with nextTag := f.nextTag + 1 } r.lose where
  nextTag := by rw [h.nextTag, tagOf_succ, Register.lose]
  marks := h.marks
  distinct := h.distinct
  created n hn := Nat.lt_succ_of_lt (h.created n hn)
  issued := h.issued_succ

theorem mark_newcomer (htag : t.tag = f.nextTag) : mark t = expected (r.newcomer t.less) :=
  Prod.ext (htag.trans h.nextTag) rfl

theorem welcome (htag : t.tag = f.nextTag) :
    Tracks { trees := f.trees.push t, nextTag := f.nextTag + 1 } (r.welcome t.less) where
  nextTag := h.lose.nextTag
  issued := h.issued_succ
  marks := by simp [Register.welcome, h.marks, h.mark_newcomer htag]
  distinct := by
    simp only [Register.welcome, Register.newcomer, List.map_append, List.map_cons, List.map_nil]
    exact List.nodup_append_comm.mp (List.nodup_cons.mpr ⟨h.newcomer_new, h.distinct⟩)
  created n hn := by
    obtain hn | rfl := List.mem_append.mp hn |>.imp_right List.mem_singleton.mp
    · exact Nat.lt_succ_of_lt (h.created n hn)
    · exact Nat.lt_succ_self _

theorem succeed (i : Nat) (htag : t.tag = f.nextTag) :
    Tracks { trees := f.trees.setIfInBounds i t, nextTag := f.nextTag + 1 } (r.succeed i t.less) where
  nextTag := h.lose.nextTag
  issued := h.issued_succ
  marks := by simp [Register.succeed, List.map_set, h.marks, h.mark_newcomer htag]
  distinct := by
    rw [Register.succeed, List.map_set]
    exact h.distinct.set h.newcomer_new
  created n hn := by
    obtain hn | rfl := List.mem_or_eq_of_mem_set hn
    · exact Nat.lt_succ_of_lt (h.created n hn)
    · exact Nat.lt_succ_self _

omit h in
theorem exchange_perm (hn : r.residents[i]? = some n) (hm : r.residents[j]? = some m) :
    (r.exchange i j n m).residents.Perm r.residents := by
  obtain ⟨hi, rfl⟩ := List.getElem?_eq_some_iff.mp hn
  obtain ⟨hj, rfl⟩ := List.getElem?_eq_some_iff.mp hm
  exact List.set_set_perm hi hj

theorem exchange (hn : r.residents[i]? = some n) (hm : r.residents[j]? = some m) (ht : f.trees[i]? = some t)
    (hu : f.trees[j]? = some u) :
    Tracks { f with trees := (f.trees.setIfInBounds i u).setIfInBounds j t } (r.exchange i j n m) where
  nextTag := h.nextTag
  issued := h.issued
  marks := by simp [Register.exchange, List.map_set, h.marks, h.mark_eq ht hn, h.mark_eq hu hm]
  distinct := (exchange_perm hn hm |>.map _).nodup_iff.mpr h.distinct
  created x hx := h.created x ((exchange_perm hn hm).subset hx)

theorem remove (i : Nat) : Tracks { f with trees := f.trees.eraseIdxIfInBounds i } (r.remove i) where
  nextTag := h.nextTag
  issued := h.issued
  marks := by
    rw [Array.toList_eraseIdxIfInBounds, Register.remove]
    simp only [List.eraseIdx_eq_take_drop_succ, List.map_append, List.map_take, List.map_drop, h.marks]
  distinct := h.distinct.sublist ((List.eraseIdx_sublist _ i).map _)
  created n hn := h.created n ((List.eraseIdx_sublist _ i).mem hn)

theorem issue {ps : List Position} (hn : n ∈ r.residents) (hps : ∀ p ∈ ps, p.tag = tagOf n.number) :
    Tracks f (r.issue n ps) where
  nextTag := h.nextTag
  marks := h.marks
  distinct := h.distinct
  created := h.created
  issued x hx := by
    obtain hx | hx := List.mem_append.mp hx
    · exact h.issued x hx
    · obtain ⟨p, hp, rfl⟩ := List.mem_map.mp hx
      exact ⟨h.created n hn, hps p hp⟩

end Tracks

theorem run_onTree (op : Tree.Op key ρ) (ht : f.trees[i]? = some t) :
    (onTree i op).run f =
      { op.run t with state := { f with trees := f.trees.setIfInBounds i (op.run t).state } } := by
  change Action.bind (tree i) _ f = _
  simp only [Action.bind, tree, look, ht]
  rfl

theorem run_onTree_refused {op : Tree.Op key ρ} (ht : f.trees[i]? = some t) (h : op.run t = .refused t) :
    (onTree i op).run f = .refused f := by
  obtain ⟨hi, heq⟩ := Array.getElem?_eq_some_iff.mp ht
  rw [run_onTree op ht, h]
  simp only [Outcome.refused, ← heq, Array.setIfInBounds_def, dif_pos hi, Array.set_getElem_self]

/-- A copy has the tag that it was to have, and the comparator of what was
    copied. -/
theorem copyWith_marked {make : Nat → α → Except ε α} {tag : UInt64} {replica : Replica key ε} {copy : Tree key}
    (h : t.copyWith make store tag = .ok replica) (hcopy : replica.result = .ok copy) :
    copy.tag = tag ∧ copy.less = t.less := by
  rw [Tree.copyWith, bind_eq_ok] at h
  obtain ⟨copied, _, h⟩ := h
  dsimp only at h
  split at h
  · obtain ⟨_, _, ⟨⟩⟩ := bind_eq_ok.mp h
    cases hcopy
  · cases h
    cases hcopy
    exact ⟨rfl, rfl⟩

theorem clone_marked {tag : UInt64} {copy : Tree key} (h : t.clone store tag = .ok copy) :
    copy.tag = tag ∧ copy.less = t.less := by
  rw [Tree.clone, bind_eq_ok] at h
  obtain ⟨replica, hreplica, h⟩ := h
  cases hresult : replica.result with
  | ok made =>
    rw [hresult] at h
    cases h
    exact copyWith_marked hreplica hresult
  | error failure =>
    rw [hresult] at h
    cases h

theorem wp_copyWith {make : Nat → α → Except ε α} (ht : f.trees[i]? = some t) :
    (copyWith make i store).wp
      (fun replica g => g = { f with nextTag := f.nextTag + 1 } ∧ t.copyWith make store f.nextTag = .ok replica)
      (fun _ g => g = { f with nextTag := f.nextTag + 1 }) f := by
  simp only [copyWith, tree, freshTag, wp_bind, wp_look, ht, wp_step]
  split
  · next replica heq =>
    rw [wp_notes, wp_pure]
    exact ⟨rfl, heq⟩
  · trivial

theorem state_copyWith {make : Nat → α → Except ε α} (ht : f.trees[i]? = some t) :
    ((copyWith make i store).run f).state = { f with nextTag := f.nextTag + 1 } :=
  state_eq_of_wp (wp_mono (wp_copyWith ht) (fun _ _ hdone => hdone.1) fun _ _ hstopped => hstopped)

theorem answer_copyWith {make : Nat → α → Except ε α} {replica : Replica key ε} (ht : f.trees[i]? = some t)
    (h : ((copyWith make i store).run f).answer = .ok replica) : t.copyWith make store f.nextTag = .ok replica := by
  have hdone : (copyWith make i store).wp _ _ f := wp_copyWith ht
  rw [wp, h] at hdone
  exact hdone.2

theorem state_swap (ht : f.trees[i]? = some t) (hu : f.trees[j]? = some u) :
    ((swap i j).run f).state = { f with trees := (f.trees.setIfInBounds i u).setIfInBounds j t } := by
  refine state_eq_of_wp ?_
  simp only [swap, tree, put, wp_bind, wp_look, ht, hu, wp_step]

theorem state_clone {copy : Tree key} (ht : f.trees[i]? = some t) (hj : j < f.trees.size)
    (hcopy : t.clone store f.nextTag = .ok copy) :
    ((clone i j store).run f).state =
      { trees := f.trees.setIfInBounds j copy, nextTag := f.nextTag + 1 } := by
  have htj : f.trees[j]? = some f.trees[j] := Array.getElem?_eq_getElem hj
  refine state_eq_of_wp ?_
  simp only [clone, replace, tree, put, freshTag, wp_bind, wp_look, ht, htj, hcopy, wp_step]
  split <;> trivial

theorem state_clone_failed (ht : f.trees[i]? = some t) (hcopy : ∀ copy, t.clone store f.nextTag ≠ .ok copy) :
    ((clone i j store).run f).state = { f with nextTag := f.nextTag + 1 } := by
  refine state_eq_of_wp ?_
  simp only [clone, tree, freshTag, wp_bind, wp_look, ht, wp_step]
  split
  · next copy heq => exact absurd heq (hcopy copy)
  · trivial

theorem state_renew (hi : i < f.trees.size) :
    ((renew i less store).run f).state =
      { trees := f.trees.setIfInBounds i (.empty key less store f.nextTag), nextTag := f.nextTag + 1 } := by
  have ht : f.trees[i]? = some f.trees[i] := Array.getElem?_eq_getElem hi
  refine state_eq_of_wp ?_
  simp only [renew, sprout, replace, tree, put, freshTag, wp_bind, wp_look, ht, wp_step, wp_pure]
  split <;> trivial

theorem state_uproot (hi : i < f.trees.size) :
    ((uproot i less store).run f).state =
      { trees := f.trees.setIfInBounds i (.empty key less store f.nextTag), nextTag := f.nextTag + 1 } := by
  have ht : f.trees[i]? = some f.trees[i] := Array.getElem?_eq_getElem hi
  refine state_eq_of_wp ?_
  simp only [uproot, sprout, tree, put, freshTag, wp_bind, wp_look, ht, wp_step, wp_pure]

/-- Whatever happens to the trees, their tags and those of the positions say
    what the register says. So a position is refused by every tree but the one
    that gave it, wherever that has gone. -/
theorem Recorded.tracks (h : Recorded f r) : Tracks f r := by
  induction h with
  | empty => exact ⟨rfl, by simp [Forest.empty], List.nodup_nil, nofun, nofun⟩
  | plant less store _ ih => exact ih.welcome (t := .empty key less store _) rfl
  | request q _ ht hn ih =>
    obtain ⟨hu, hshown⟩ := Tree.request_leaves q _
    rw [run_onTree _ ht]
    exact (ih.set ht hu).issue (List.mem_of_getElem? hn) fun p hp => (hshown p hp).trans (ih.tag_eq ht hn)
  | modify p change _ ht ih =>
    rw [state_onTree _ ht]
    exact ih.set ht (Tree.modify_leaves p change _)
  | setBudget budget _ ht ih =>
    rw [Command.run, state_onTree _ ht]
    exact ih.set ht ⟨rfl, rfl⟩
  | swap _ hn hm ih =>
    obtain ⟨t, ht⟩ := ih.exists_tree hn
    obtain ⟨u, hu⟩ := ih.exists_tree hm
    rw [state_swap ht hu]
    exact ih.exchange hn hm ht hu
  | copy _ hn hanswer hcopy ih =>
    obtain ⟨t, ht⟩ := ih.exists_tree hn
    obtain ⟨htag, hless⟩ := copyWith_marked (answer_copyWith ht hanswer) hcopy
    rw [state_copyWith ht, ← ih.less_eq ht hn, ← hless]
    exact ih.welcome htag
  | copyFailed _ hn _ ih =>
    obtain ⟨t, ht⟩ := ih.exists_tree hn
    rw [state_copyWith ht]
    exact ih.lose
  | clone _ ht hn hj hcopy ih =>
    obtain ⟨htag, hless⟩ := clone_marked hcopy
    rw [state_clone ht hj hcopy, ← ih.less_eq ht hn, ← hless]
    exact ih.succeed _ htag
  | cloneFailed _ ht hcopy ih =>
    rw [state_clone_failed ht hcopy]
    exact ih.lose
  | renew less store _ hi ih =>
    rw [state_renew hi]
    exact ih.succeed _ rfl
  | uproot less store _ hi ih =>
    rw [state_uproot hi]
    exact ih.succeed _ rfl
  | drop i _ ih => exact ih.remove i

/-- How the tree at a place takes positions. Those that its own identity gave it
    takes, also where their items are gone; all others it refuses, whatever is
    requested at them, and has done nothing then. -/
structure TellsApart (f : Forest key) (r : Register κ) (i : Nat) (t : Tree key) (n : Identity κ) : Prop where
  own : ∀ x ∈ r.issued, t.own x.1 = if x.2 = n.number then .ok x.1.slot else .error .foreignPosition
  refuses : ∀ {ε : Type} (q : Tree.Request α κ ε), ∀ x ∈ r.issued, x.1 ∈ q.positions → x.2 ≠ n.number →
    (onTree i q.run).run f = .refused f
  takes : ∀ {ε : Type} (q : Tree.Request α κ ε), (∀ p ∈ q.positions, (p, n.number) ∈ r.issued) →
    ((onTree i q.run).run f).answer ≠ .error .foreignPosition
  modifies : ∀ (change : α → α), ∀ x ∈ r.issued,
    if x.2 = n.number then ((onTree i (Tree.modify x.1 change)).run f).answer ≠ .error .foreignPosition
    else (onTree i (Tree.modify x.1 change)).run f = .refused f

/-- Two trees have changed places as they are, and whatever is requested of one
    of them is answered as it would have been before, with the same comparisons.
    In particular a position names the same item. -/
structure Exchanged (f g : Forest key) (i j : Nat) : Prop where
  places : g.trees[i]? = f.trees[j]? ∧ g.trees[j]? = f.trees[i]?
  others : ∀ k, k ≠ i → k ≠ j → g.trees[k]? = f.trees[k]?
  answers : ∀ {ε : Type} (q : Tree.Request α κ ε),
    ((onTree j q.run).run g).answer = ((onTree i q.run).run f).answer ∧
      ((onTree i q.run).run g).answer = ((onTree j q.run).run f).answer
  asked : ∀ {ε : Type} (q : Tree.Request α κ ε),
    ((onTree j q.run).run g).asked = ((onTree i q.run).run f).asked ∧
      ((onTree i q.run).run g).asked = ((onTree j q.run).run f).asked

namespace Tracks

variable (h : Tracks f r) (hfew : r.created < UInt64.size)
include h hfew

omit h in
theorem tag_eq_iff {a b : Nat} (ha : a < r.created) (hb : b < r.created) : tagOf a = tagOf b ↔ a = b :=
  tagOf_inj (by omega) (by omega)

theorem nodup_tags : (f.trees.toList.map Tree.tag).Nodup := by
  have htags : f.trees.toList.map Tree.tag = (r.residents.map Identity.number).map tagOf := by
    have hfst := congrArg (List.map Prod.fst) h.marks
    simpa [List.map_map, Function.comp_def, mark, expected] using hfst
  rw [htags]
  refine h.distinct.map_on ?_
  intro a ha b hb hab
  obtain ⟨n, hn, rfl⟩ := List.mem_map.mp ha
  obtain ⟨m, hm, rfl⟩ := List.mem_map.mp hb
  exact (tag_eq_iff hfew (h.created n hn) (h.created m hm)).mp hab

theorem tag_eq_iff_issuer {x : Position × Nat} (ht : f.trees[i]? = some t) (hn : r.residents[i]? = some n)
    (hx : x ∈ r.issued) : x.1.tag = t.tag ↔ x.2 = n.number := by
  obtain ⟨hcreated, htag⟩ := h.issued x hx
  rw [htag, h.tag_eq ht hn]
  exact tag_eq_iff hfew hcreated (h.created n (List.mem_of_getElem? hn))

theorem tellsApart (ht : f.trees[i]? = some t) (hn : r.residents[i]? = some n) : TellsApart f r i t n where
  own x hx := by
    rw [Tree.own]
    simp only [h.tag_eq_iff_issuer hfew ht hn hx]
  refuses q x hx hmem hother := by
    refine run_onTree_refused ht (Tree.request_refused ?_)
    intro howns
    exact hother ((h.tag_eq_iff_issuer hfew ht hn hx).mp (howns x.1 hmem))
  takes q hq := by
    rw [run_onTree _ ht]
    refine mt Tree.request_foreign_iff.mp (not_not_intro ?_)
    intro p hp
    exact (h.tag_eq_iff_issuer hfew ht hn (hq p hp)).mpr rfl
  modifies change x hx := by
    have hiff := h.tag_eq_iff_issuer hfew ht hn hx
    split
    · next hown =>
      rw [run_onTree _ ht]
      exact mt Tree.modify_foreign_iff.mp (not_not_intro (hiff.mpr hown))
    · next hother => exact run_onTree_refused ht (Tree.modify_refused (mt hiff.mp hother) change)

/-- Positions may be compared with one another exactly if one tree gave both. -/
theorem same_eq {x y : Position × Nat} (hx : x ∈ r.issued) (hy : y ∈ r.issued) :
    x.1.same y.1 = if x.2 = y.2 then .ok (decide (x.1.slot = y.1.slot)) else .error .mixedPositions := by
  obtain ⟨hxc, hxtag⟩ := h.issued x hx
  obtain ⟨hyc, hytag⟩ := h.issued y hy
  rw [Position.same, hxtag, hytag]
  simp only [tag_eq_iff hfew hxc hyc]

end Tracks

theorem run_onTree_moved {op : Tree.Op key ρ} (ht : f.trees[i]? = some t) (hg : g.trees[j]? = some t) :
    ((onTree j op).run g).answer = ((onTree i op).run f).answer ∧
      ((onTree j op).run g).asked = ((onTree i op).run f).asked := by
  rw [run_onTree op ht, run_onTree op hg]
  exact ⟨rfl, rfl⟩

theorem exchanged_swap (ht : f.trees[i]? = some t) (hu : f.trees[j]? = some u) :
    Exchanged f ((swap i j).run f).state i j := by
  obtain ⟨hi, hti⟩ := Array.getElem?_eq_some_iff.mp ht
  obtain ⟨hj, huj⟩ := Array.getElem?_eq_some_iff.mp hu
  rw [state_swap ht hu]
  have hthere : ((f.trees.setIfInBounds i u).setIfInBounds j t)[j]? = some t := by simp [hj]
  have hhere : ((f.trees.setIfInBounds i u).setIfInBounds j t)[i]? = some u := by
    by_cases hij : j = i
    · subst hij
      simp [hj, ← hti, huj]
    · rw [Array.getElem?_setIfInBounds_ne hij]
      simp [hi]
  constructor
  · exact ⟨hhere.trans hu.symm, hthere.trans ht.symm⟩
  · intro k hki hkj
    simp [Array.getElem?_setIfInBounds_ne (Ne.symm hki), Array.getElem?_setIfInBounds_ne (Ne.symm hkj)]
  · exact fun q => ⟨(run_onTree_moved ht hthere).1, (run_onTree_moved hu hhere).1⟩
  · exact fun q => ⟨(run_onTree_moved ht hthere).2, (run_onTree_moved hu hhere).2⟩

/-- In every run over trees, in which fewer than 2 ^ 64 of them come into being,
    no two trees have the same tag. Each tree orders by the comparator that came
    with its content. It takes the positions that it gave, wherever it has gone
    and whatever became of their items, and refuses all others before it does
    anything; two positions may be compared exactly if they are of one tree.
    Trees that are exchanged go on in each other's place. -/
theorem positions_tell_trees_apart (h : Recorded f r) (hfew : r.created < UInt64.size) :
    f.trees.size = r.residents.length ∧ (f.trees.toList.map Tree.tag).Nodup ∧
      (∀ i t n, f.trees[i]? = some t → r.residents[i]? = some n → t.less = n.less ∧ TellsApart f r i t n) ∧
      (∀ x ∈ r.issued, ∀ y ∈ r.issued, x.1.same y.1 =
        if x.2 = y.2 then .ok (decide (x.1.slot = y.1.slot)) else .error .mixedPositions) ∧
      ∀ i j t u, f.trees[i]? = some t → f.trees[j]? = some u → Exchanged f ((swap i j).run f).state i j :=
  have htracks := h.tracks
  ⟨htracks.size, htracks.nodup_tags hfew, fun _ _ _ ht hn => ⟨htracks.less_eq ht hn, htracks.tellsApart hfew ht hn⟩,
    fun _ hx _ hy => htracks.same_eq hfew hx hy, fun _ _ _ _ => exchanged_swap⟩

/-- Two trees of opposite orders give a position each and are exchanged. -/
theorem positions_tell_trees_apart_exchanged :
    ∃ (f : Forest (id : Nat → Nat)) (p q : Position), (f.trees.toList.map Tree.tag).Nodup ∧
      ((onTree 1 (Tree.Request.inquiry (.get p) : Tree.Request Nat Nat Empty).run).run f).answer =
        .ok (.finding (.item (some 5))) ∧
      (onTree 0 (Tree.Request.command (.erase p) : Tree.Request Nat Nat Empty).run).run f = .refused f ∧
      p.same q = .error .mixedPositions := by
  let less (a b : Nat) : Bool := decide (a < b)
  let greater (a b : Nat) : Bool := decide (b < a)
  let insertion (item : Nat) : Tree.Request Nat Nat Empty := .command (.insertEqual item)
  let p : Position := ⟨some 0, 1⟩
  let q : Position := ⟨some 0, 2⟩
  have h₀ : Recorded (.empty (id : Nat → Nat)) {} := .empty
  have h₁ := (h₀.plant less (.arena .empty)).plant greater (.arena .empty)
  have h₂ := (h₁.request (i := 0) (insertion 5) rfl rfl).request (i := 1) (insertion 7) rfl rfl
  obtain ⟨f, r, h, hfew, hissued, hnumbers, hget⟩ : ∃ (f : Forest (id : Nat → Nat)) (r : Register Nat), Recorded f r ∧
      r.created < UInt64.size ∧ r.issued = [(p, 0), (q, 1)] ∧ r.residents.map Identity.number = [0, 1] ∧
      ((onTree 0 (Tree.Request.inquiry (.get p) : Tree.Request Nat Nat Empty).run).run f).answer =
        .ok (.finding (.item (some 5))) :=
    ⟨_, _, h₂, by decide +kernel, by decide +kernel, by decide +kernel, rfl⟩
  obtain ⟨n, m, hresidents, hn, hm⟩ : ∃ n m, r.residents = [n, m] ∧ n.number = 0 ∧ m.number = 1 := by
    simpa [List.map_eq_cons_iff] using hnumbers
  obtain ⟨t, ht⟩ := h.tracks.exists_tree (i := 0) (by rw [hresidents]; rfl)
  obtain ⟨u, hu⟩ := h.tracks.exists_tree (i := 1) (by rw [hresidents]; rfl)
  have h' := h.swap (i := 0) (j := 1) (by rw [hresidents]; rfl) (by rw [hresidents]; rfl)
  obtain ⟨_, _, _, hsame, hswap⟩ := positions_tell_trees_apart h hfew
  obtain ⟨_, htags, htrees, _⟩ := positions_tell_trees_apart h' hfew
  have hexchanged := hswap 0 1 t u ht hu
  obtain ⟨_, hapart⟩ := htrees 0 u m (hexchanged.places.1.trans hu) (by simp [Register.exchange, hresidents])
  refine ⟨_, p, q, htags, ?_, ?_, ?_⟩
  · rw [(hexchanged.answers _).1, hget]
  · refine hapart.refuses _ (p, 0) (by simp [Register.exchange, hissued]) ?_ (by simp [hm])
    simp [Tree.Request.positions, Tree.Command.positions]
  · exact hsame (p, 0) (by simp [hissued]) (q, 1) (by simp [hissued])

end Forest

end RedBlack
