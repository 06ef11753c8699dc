import RedBlack.Proofs.LivePositions
import RedBlack.Proofs.Tree.Foreign
import RedBlack.Proofs.Tree.NoTrace

namespace RedBlack

theorem Place.rename_refl (place : Place) : place.rename (Equiv.refl Slot) = place := by
  cases place <;> rfl

theorem Vacancy.rename_refl (v : Vacancy) : v.rename (Equiv.refl Slot) = v := by
  cases v with
  | vacant place => exact congrArg Vacancy.vacant place.rename_refl
  | occupied slot => rfl

namespace Tree

open RedBlack.Action

variable {α κ ε ρ : Type} {key : α → κ} {t : Tree key} {entries : List (Slot × α)} {o p : Outside α} {slot : Slot}
  {item : α} {reserved built store : Store α} {build : Unit → Except ε α} {place : Place}

section Searches

/-- The same tree over any store that holds its entries is coupled with it. -/
theorem Represents.coupled_withStore (h : t.Represents entries o) (hstore : store.Holds entries p) :
    t.Coupled (fun _ _ _ => True) (.refl Slot) { t with store } entries o p where
  left := h
  right := by simpa using h.withStore hstore
  shape := t.shape.rename_id.symm
  less := rfl
  store := trivial

/-- A search to which it is all the same what else a store holds beside the
    entries of its tree, as none sees a node that hangs nowhere. So it may come
    after the request for a slot as well as before. -/
def Unaware (t : Tree key) (entries : List (Slot × α)) (search : Tree key → κ → Query κ ρ) : Prop :=
  ∀ {store p}, Store.Holds store entries p → ∀ k, search { t with store } k = search t k

namespace Represents

variable (h : t.Represents entries o)
include h

theorem unaware_uniquePlace : t.Unaware entries fun (u : Tree key) k => u.uniquePlace k := by
  intro store p hstore k
  refine (((h.coupled_withStore hstore).uniquePlace k).mono ?_).eq
  rintro v _ rfl
  exact v.rename_refl.symm

theorem unaware_hintedUniquePlace {hint : Position} (hhint : t.LiveOrEnd hint) :
    t.Unaware entries fun (u : Tree key) k => u.hintedUniquePlace hint.slot k := by
  intro store p hstore k
  have hsame : t.Corresponds (.refl Slot) hint.slot hint.slot := ⟨by simp, hhint.2⟩
  refine (((h.coupled_withStore hstore).hintedUniquePlace hsame k).mono ?_).eq
  rintro v _ rfl
  exact v.rename_refl.symm

theorem unaware_hintedEqualPlace {hint : Position} (hhint : t.LiveOrEnd hint) :
    t.Unaware entries fun (u : Tree key) k => u.hintedEqualPlace hint.slot k := by
  intro store p hstore k
  have hsame : t.Corresponds (.refl Slot) hint.slot hint.slot := ⟨by simp, hhint.2⟩
  refine (((h.coupled_withStore hstore).hintedEqualPlace hsame k).mono ?_).eq
  rintro place _ rfl
  exact place.rename_refl.symm

theorem unaware_equalPlace (bound : Bound) : t.Unaware entries fun (u : Tree key) k => u.equalPlace bound k := by
  intro store p hstore k
  refine (((h.coupled_withStore hstore).equalPlace bound k).mono ?_).eq
  rintro place _ rfl
  exact place.rename_refl.symm

end Represents

end Searches

section Runs

/-- After a search the next operation goes on in the same tree. -/
theorem run_search_bind {υ : Type} {search : Tree key → κ → Query κ ρ} {k : κ} {found : ρ} {asked : List (κ × κ)}
    (h : search t k = .ok (found, asked)) (next : ρ → Op key υ) :
    ((ask fun u => search u k) >>= next).run t =
      { (next found).run t with asked := asked ++ ((next found).run t).asked } :=
  run_ask_bind (s := t) h next

theorem run_positionOf (slot : Option Slot) :
    (positionOf slot : Op key Position).run t = { state := t, answer := .ok (t.position slot) } :=
  rfl

theorem run_allocate_bind {got : Except AllocError Slot} (hgot : t.store.allocate = .ok (got, store))
    (next : Except AllocError Slot → Op key ρ) : (allocate >>= next).run t = (next got).run { t with store } := by
  apply run_step_bind
  rw [hgot]
  rfl

theorem run_construct_bind (hmade : t.store.construct slot item = .ok built) (next : Unit → Op key ρ) :
    (construct slot item >>= next).run t = (next ()).run { t with store := built } := by
  apply run_step_bind
  rw [hmade]
  rfl

theorem run_release_bind (hback : t.store.deallocate slot = .ok (some item, store)) (next : α → Op key ρ) :
    (release slot >>= next).run t = (next item).run { t with store } := by
  apply run_step_bind
  rw [hback]
  rfl

variable (hslot : t.store.allocate = .ok (.ok slot, reserved)) (hmade : reserved.construct slot item = .ok built)
include hslot hmade

/-- A plain insertion that gets its slot is left with hanging the node. -/
theorem run_insertAt (place : Place) :
    (insertAt item place).run t = (Except.ok <$> hang slot place : Op key _).run { t with store := built } := by
  rw [insertAt, run_allocate_bind hslot]
  exact run_construct_bind (t := { t with store := reserved }) hmade _

theorem run_insertAt_ok {p : Position} {u : Tree key}
    (hhang : (hang slot place : Op key _).run { t with store := built } = { state := u, answer := .ok p }) :
    (insertAt item place).run t = { state := u, answer := .ok (.ok p) } := by
  rw [run_insertAt hslot hmade, run_map_eq, hhang]
  rfl

theorem run_buildNode_bind (hbuild : build () = .ok item) (next : Built ε (Slot × α) → Op key ρ) :
    (buildNode build >>= next).run t =
      (next { calls := 1, result := .ok (slot, item) }).run { t with store := built } := by
  apply run_silent_bind
  rw [buildNode, run_allocate_bind hslot]
  simp only [Built.call_of_ok hbuild]
  exact run_construct_bind (t := { t with store := reserved }) hmade _

end Runs

/-- What putting an item into a tree comes to when the item is built in the slot
    handed out, `y`, beside what it comes to when it is inserted as it is, `x`.
    The answers are the same, and so are the comparisons made. -/
structure InPlace (t : Tree key) (slot : Slot) (item : α) (built : Store α) (isNew : ρ → Bool)
    (x : Outcome (Tree key) κ (Except AllocError ρ)) (y : Outcome (Tree key) κ (Built ε ρ)) (found : ρ) : Prop where
  plain : x.answer = .ok (.ok found)
  answer : y.answer = .ok { calls := 1, result := .ok found }
  asked : y.asked = x.asked
  inserted : isNew found = true → y.state = x.state
  /-- Where an item is in the way, the slot is given back. -/
  blocked : isNew found = false → x.state = t ∧
    ∃ store, built.deallocate slot = .ok (some item, store) ∧ y.state = { t with store }

namespace Represents

variable {before after : List (Slot × α)} {q : Path}

theorem exists_built (h : t.Represents entries o) (hslot : t.store.allocate = .ok (.ok slot, reserved)) (item : α) :
    ∃ built, reserved.construct slot item = .ok built ∧ o.use slot = none ∧
      built.Holds entries (o.add slot (some item)) := by
  obtain ⟨_, _, hrun, _, hfree, hreserved⟩ | ⟨_, hrun, _⟩ := h.store.allocate
  · cases hslot.symm.trans hrun
    obtain ⟨built, hmade, hbuilt⟩ := hreserved.construct item
    exact ⟨built, hmade, hfree, hbuilt⟩
  · cases hslot.symm.trans hrun

theorem run_hang (h : t.Represents (before ++ after) (o.add slot (some item))) (hfree : o.use slot = none)
    (hgap : t.Gap q before after) :
    ∃ answer u, (Tree.hang slot q.place : Op key _).run t = { state := u, answer := .ok answer } := by
  obtain ⟨answer, hanswer, _⟩ := (h.hang hfree hgap).answer
  exact ⟨answer, _, run_step_ok hanswer⟩

section InPlace

variable (h : t.Represents entries o) (hslot : t.store.allocate = .ok (.ok slot, reserved))
  (hmade : reserved.construct slot item = .ok built) (hbuild : build () = .ok item)
include h hslot hmade hbuild

theorem insertUniqueWithBy_inPlace {search : Tree key → κ → Query κ Vacancy} (hfinds : FindsUnique entries search)
    (hunaware : t.Unaware entries search) :
    ∃ answer, t.InPlace slot item built Prod.snd ((Tree.insertUniqueBy search item).run t)
      ((Tree.insertUniqueWithBy search build).run t) answer := by
  obtain ⟨_, hmade', hfree, hbuilt⟩ := h.exists_built hslot item
  obtain rfl := Except.ok.inj (hmade.symm.trans hmade')
  obtain ⟨v, hv, hspot⟩ := hfinds h (key item)
  obtain ⟨asked, hasked⟩ := Query.exists_asked hv
  have hasked' : search { t with store := built } (key item) = .ok (v, asked) := by rw [hunaware hbuilt, hasked]
  cases hspot with
  | vacant hvacant =>
    obtain ⟨path, before, after, rfl, hgap, rfl, _⟩ := hvacant
    have hbuiltTree := h.withStore hbuilt
    obtain ⟨answer, u, hhang⟩ := hbuiltTree.run_hang hfree (q := path) ⟨hgap.fill, hgap.before, hgap.after⟩
    have hplain : (Tree.insertUniqueBy search item).run t =
        { state := u, answer := .ok (.ok (answer, true)), asked := asked } := by
      rw [Tree.insertUniqueBy, run_search_bind hasked]
      simp only
      rw [run_silent_bind (run_insertAt_ok hslot hmade hhang), run_pure, List.append_nil]
      rfl
    have hinPlace : (Tree.insertUniqueWithBy search build).run t =
        { state := u, answer := .ok { calls := 1, result := .ok (answer, true) }, asked := asked } := by
      rw [Tree.insertUniqueWithBy, run_buildNode_bind hslot hmade hbuild]
      simp only
      rw [run_search_bind hasked']
      simp only
      rw [run_silent_bind hhang, run_pure, List.append_nil]
    refine ⟨(answer, true), ?_⟩
    rw [hplain, hinPlace]
    exact ⟨rfl, rfl, rfl, fun _ => rfl, fun hold => Bool.noConfusion hold⟩
  | @occupied other _ _ _ _ =>
    obtain ⟨store, hback, _⟩ := hbuilt.deallocate hfree
    have hplain : (Tree.insertUniqueBy search item).run t =
        { state := t, answer := .ok (.ok (t.position (some other), false)), asked := asked } := by
      rw [Tree.insertUniqueBy, run_search_bind hasked]
      simp only
      rw [run_silent_bind (run_positionOf _), run_pure, List.append_nil]
    have hinPlace : (Tree.insertUniqueWithBy search build).run t =
        { state := { t with store },
          answer := .ok { calls := 1, result := .ok (t.position (some other), false) }, asked := asked } := by
      rw [Tree.insertUniqueWithBy, run_buildNode_bind hslot hmade hbuild]
      simp only
      rw [run_search_bind hasked']
      simp only
      rw [run_release_bind (t := { t with store := built }) hback, run_silent_bind (run_positionOf _), run_pure,
        List.append_nil]
      rfl
    refine ⟨(t.position (some other), false), ?_⟩
    rw [hplain, hinPlace]
    exact ⟨rfl, rfl, rfl, fun hnew => Bool.noConfusion hnew, fun _ => ⟨rfl, store, hback, rfl⟩⟩

theorem insertEqualWithBy_inPlace {search : Tree key → κ → Query κ Place} (hfinds : FindsEqual entries search)
    (hunaware : t.Unaware entries search) :
    ∃ answer, t.InPlace slot item built (fun _ => true) ((Tree.insertEqualBy search item).run t)
      ((Tree.insertEqualWithBy search build).run t) answer := by
  obtain ⟨_, hmade', hfree, hbuilt⟩ := h.exists_built hslot item
  obtain rfl := Except.ok.inj (hmade.symm.trans hmade')
  obtain ⟨place, hplace, path, before, after, rfl, hgap, rfl, _⟩ := hfinds h (key item)
  obtain ⟨asked, hasked⟩ := Query.exists_asked hplace
  have hasked' : search { t with store := built } (key item) = .ok (path.place, asked) := by
    rw [hunaware hbuilt, hasked]
  have hbuiltTree := h.withStore hbuilt
  obtain ⟨answer, u, hhang⟩ := hbuiltTree.run_hang hfree (q := path) ⟨hgap.fill, hgap.before, hgap.after⟩
  have hplain : (Tree.insertEqualBy search item).run t =
      { state := u, answer := .ok (.ok answer), asked := asked } := by
    rw [Tree.insertEqualBy, run_search_bind hasked, run_insertAt_ok hslot hmade hhang, List.append_nil]
  have hinPlace : (Tree.insertEqualWithBy search build).run t =
      { state := u, answer := .ok { calls := 1, result := .ok answer }, asked := asked } := by
    rw [Tree.insertEqualWithBy, run_buildNode_bind hslot hmade hbuild]
    simp only
    rw [run_search_bind hasked', run_silent_bind hhang, run_pure, List.append_nil]
  refine ⟨answer, ?_⟩
  rw [hplain, hinPlace]
  exact ⟨rfl, rfl, rfl, fun _ => rfl, fun hold => Bool.noConfusion hold⟩

end InPlace

end Represents

/-- The plain insertion that goes with a request that builds its item. -/
def Command.plain (item : α) : Command α κ ε → Command α κ ε
  | insertUniqueWith _ => insertUnique item
  | insertEqualWith _ => insertEqual item
  | insertUniqueHintWith hint _ => insertUniqueHint hint item
  | insertEqualHintWith hint _ => insertEqualHint hint item
  | c => c

namespace Reply

/-- Whether an item was not inserted because another one was in its way. -/
def blocked : Reply α ε → Bool
  | unique (.ok (_, inserted)) => !inserted
  | _ => false

/-- The reply to a request that builds its item by one call of the constructor,
    where the plain insertion of the item is given this reply. -/
def builtOnce : Reply α ε → Reply α ε
  | unique answer => uniqueWith { calls := 1, result := answer.mapError .alloc }
  | equal answer => equalWith { calls := 1, result := answer.mapError .alloc }
  | reply => reply

end Reply

/-- What a request that builds its item comes to beside the plain insertion of
    that item, if the store hands out the slot given. Only where an item is in
    the way has the first one a slot to give back. -/
structure MatchesPlain (t : Tree key) (c : Command α κ ε) (item : α) (slot : Slot) (reserved : Store α)
    (reply : Reply α ε) : Prop where
  plain : (((c.plain item).run : Op key (Reply α ε)).run t).answer = .ok reply
  answer : ((c.run : Op key (Reply α ε)).run t).answer = .ok reply.builtOnce
  asked : ((c.run : Op key (Reply α ε)).run t).asked = (((c.plain item).run : Op key (Reply α ε)).run t).asked
  /-- The trees left are the same, the links, colours and items of their nodes
      included. -/
  tree : (c.run.run t).state = { ((c.plain item).run.run t).state with store := (c.run.run t).state.store }
  nodes : (c.run.run t).state.nodes = ((c.plain item).run.run t).state.nodes
  inserted : reply.blocked = false → (c.run.run t).state = ((c.plain item).run.run t).state
  /-- With an item in the way, the slot handed out was given back. In an arena
      no later request tells. -/
  blocked : reply.blocked = true → ((c.plain item).run.run t).state = t ∧
    (∃ built, reserved.construct slot item = .ok built ∧
      built.deallocate slot = .ok (some item, (c.run.run t).state.store)) ∧
    (t.store.limits = false → ∀ ε' : Type, AsIfNever ε' ((c.plain item).run.run t).state (c.run.run t).state)

namespace Represents

/-- A slot that was given back with the item that was built in it leaves the
    tree as it was. -/
theorem coupled_of_release (h : t.Represents entries o) (hslot : t.store.allocate = .ok (.ok slot, reserved))
    (hmade : reserved.construct slot item = .ok built) (hback : built.deallocate slot = .ok (some item, store)) :
    t.Coupled SameSlots (.refl Slot) { t with store } entries o o := by
  obtain ⟨_, hmade', hfree, hbuilt⟩ := h.exists_built hslot item
  cases hmade.symm.trans hmade'
  obtain ⟨_, hback', hheld⟩ := hbuilt.deallocate hfree
  cases hback.symm.trans hback'
  exact h.coupled_of_alike hheld (Arena.Sound.alike_of_allocate_deallocate h.store.sound (Store.allocate_eq_ok hslot).1
    (Arena.deallocate_of_construct (Store.construct_eq_ok hmade) (Store.deallocate_eq_ok hback).1))

theorem matchesPlain {c : Command α κ ε} {f : Except AllocError ρ → Reply α ε} {g : Built ε ρ → Reply α ε}
    {isNew : ρ → Bool} {x : Outcome (Tree key) κ (Except AllocError ρ)} {y : Outcome (Tree key) κ (Built ε ρ)}
    {found : ρ} (h : t.Represents entries o) (hslot : t.store.allocate = .ok (.ok slot, reserved))
    (hmade : reserved.construct slot item = .ok built) (hxy : t.InPlace slot item built isNew x y found)
    (hx : (c.plain item).run.run t = { x with answer := x.answer.map f })
    (hy : c.run.run t = { y with answer := y.answer.map g })
    (hreply : g { calls := 1, result := .ok found } = (f (.ok found)).builtOnce)
    (hblocked : (f (.ok found)).blocked = !isNew found) : t.MatchesPlain c item slot reserved (f (.ok found)) := by
  have hplain : (((c.plain item).run : Op key (Reply α ε)).run t).answer = .ok (f (.ok found)) := by
    rw [hx, hxy.plain, except_map]
  have hanswer : ((c.run : Op key (Reply α ε)).run t).answer = .ok (f (.ok found)).builtOnce := by
    rw [hy, hxy.answer, except_map, hreply]
  have hasked : ((c.run : Op key (Reply α ε)).run t).asked =
      (((c.plain item).run : Op key (Reply α ε)).run t).asked := by
    rw [hx, hy]
    exact hxy.asked
  have hxstate : ((c.plain item).run.run t).state = x.state := by rw [hx]
  have hystate : (c.run.run t).state = y.state := by rw [hy]
  cases hnew : isNew found with
  | true =>
    have hsame : (c.run.run t).state = ((c.plain item).run.run t).state := by
      rw [hxstate, hystate, hxy.inserted hnew]
    refine ⟨hplain, hanswer, hasked, by rw [hsame], by rw [hsame], fun _ => hsame, ?_⟩
    intro hnot
    rw [hblocked, hnew] at hnot
    cases hnot
  | false =>
    obtain ⟨hkept, store, hback, hleft⟩ := hxy.blocked hnew
    have hcoupled := h.coupled_of_release hslot hmade hback
    rw [hkept] at hxstate
    rw [hleft] at hystate
    refine ⟨hplain, hanswer, hasked, by rw [hxstate, hystate], ?_, ?_, ?_⟩
    · rw [hxstate, hystate]
      exact hcoupled.nodes
    · intro hnot
      rw [hblocked, hnew] at hnot
      cases hnot
    · intro _
      rw [hxstate, hystate]
      exact ⟨rfl, ⟨built, hmade, hback⟩, fun hlimits _ => hcoupled.asIfNever hlimits⟩

/-- Where a slot is handed out and the constructor gives an item, each insertion
    that builds its item does what the plain insertion of this item does. -/
theorem exists_matchesPlain {c : Command α κ ε} (h : t.Represents entries o) (hbuilds : c.build? = some build)
    (hlive : c.OnLive t) (hslot : t.store.allocate = .ok (.ok slot, reserved)) (hbuild : build () = .ok item) :
    ∃ reply, t.MatchesPlain c item slot reserved reply := by
  obtain ⟨built, hmade, _⟩ := h.exists_built hslot item
  cases c with
  | insertUniqueWith make =>
    obtain rfl : make = build := Option.some.inj hbuilds
    obtain ⟨found, hxy⟩ :=
      h.insertUniqueWithBy_inPlace hslot hmade hbuild (findsUnique_plain entries) h.unaware_uniquePlace
    refine ⟨_, h.matchesPlain hslot hmade hxy (run_map_eq _ Reply.unique) (run_map_eq _ Reply.uniqueWith) rfl rfl⟩
  | insertEqualWith make =>
    obtain rfl : make = build := Option.some.inj hbuilds
    obtain ⟨found, hxy⟩ :=
      h.insertEqualWithBy_inPlace hslot hmade hbuild (findsEqual_plain entries .upper) (h.unaware_equalPlace .upper)
    exact ⟨_, h.matchesPlain hslot hmade hxy (run_map_eq _ Reply.equal) (run_map_eq _ Reply.equalWith) rfl rfl⟩
  | insertUniqueHintWith hint make =>
    obtain rfl : make = build := Option.some.inj hbuilds
    have hhint : t.LiveOrEnd hint := hlive hint List.mem_cons_self
    obtain ⟨found, hxy⟩ := h.insertUniqueWithBy_inPlace hslot hmade hbuild (findsUnique_hinted (h.slot_mem hhint))
      (h.unaware_hintedUniquePlace hhint)
    refine ⟨_, h.matchesPlain hslot hmade hxy (f := Reply.unique) (g := Reply.uniqueWith) ?_ ?_ rfl rfl⟩
    · rw [Command.plain, Command.run, run_map_eq, Tree.insertUniqueHint, run_owned_bind hhint.1]
    · rw [Command.run, run_map_eq, Tree.insertUniqueHintWith, run_owned_bind hhint.1]
  | insertEqualHintWith hint make =>
    obtain rfl : make = build := Option.some.inj hbuilds
    have hhint : t.LiveOrEnd hint := hlive hint List.mem_cons_self
    obtain ⟨found, hxy⟩ := h.insertEqualWithBy_inPlace hslot hmade hbuild (findsEqual_hinted (h.slot_mem hhint))
      (h.unaware_hintedEqualPlace hhint)
    refine ⟨_, h.matchesPlain hslot hmade hxy (f := Reply.equal) (g := Reply.equalWith) ?_ ?_ rfl rfl⟩
    · rw [Command.plain, Command.run, run_map_eq, Tree.insertEqualHint, run_owned_bind hhint.1]
    · rw [Command.run, run_map_eq, Tree.insertEqualHintWith, run_owned_bind hhint.1]
  | _ => cases hbuilds

end Represents

section Refused

variable {error : AllocError} (hrefused : t.store.allocate = .ok (.error error, store))
include hrefused

theorem run_buildNode_bind_refused (build : Unit → Except ε α) (next : Built ε (Slot × α) → Op key ρ) :
    (buildNode build >>= next).run t =
      (next { calls := 0, result := .error (.alloc error) }).run { t with store } := by
  apply run_silent_bind
  rw [buildNode, run_allocate_bind hrefused]
  rfl

theorem run_insertUniqueWithBy_refused (search : Tree key → κ → Query κ Vacancy) (build : Unit → Except ε α) :
    (insertUniqueWithBy search build).run t =
      { state := { t with store }, answer := .ok { calls := 0, result := .error (.alloc error) } } := by
  rw [insertUniqueWithBy, run_buildNode_bind_refused hrefused]
  rfl

theorem run_insertEqualWithBy_refused (search : Tree key → κ → Query κ Place) (build : Unit → Except ε α) :
    (insertEqualWithBy search build).run t =
      { state := { t with store }, answer := .ok { calls := 0, result := .error (.alloc error) } } := by
  rw [insertEqualWithBy, run_buildNode_bind_refused hrefused]
  rfl

/-- Without a slot a request that builds its item fails at once: no constructor
    is called, and nothing is compared. -/
theorem exists_refused {c : Command α κ ε} (hbuilds : c.build? = some build) (hlive : c.OnLive t) :
    ∃ reply : Reply α ε, c.run.run t = { state := { t with store }, answer := .ok reply } ∧
      reply.failure? = some (.alloc error) ∧ reply.calls = 0 := by
  cases c with
  | insertUniqueWith make =>
    refine ⟨.uniqueWith { calls := 0, result := .error (.alloc error) }, ?_, rfl, rfl⟩
    rw [Command.run, run_map_eq, insertUniqueWith, run_insertUniqueWithBy_refused hrefused]
    rfl
  | insertEqualWith make =>
    refine ⟨.equalWith { calls := 0, result := .error (.alloc error) }, ?_, rfl, rfl⟩
    rw [Command.run, run_map_eq, insertEqualWith, run_insertEqualWithBy_refused hrefused]
    rfl
  | insertUniqueHintWith hint make =>
    have hhint : t.LiveOrEnd hint := hlive hint List.mem_cons_self
    refine ⟨.uniqueWith { calls := 0, result := .error (.alloc error) }, ?_, rfl, rfl⟩
    rw [Command.run, run_map_eq, insertUniqueHintWith, run_owned_bind hhint.1, run_insertUniqueWithBy_refused hrefused]
    rfl
  | insertEqualHintWith hint make =>
    have hhint : t.LiveOrEnd hint := hlive hint List.mem_cons_self
    refine ⟨.equalWith { calls := 0, result := .error (.alloc error) }, ?_, rfl, rfl⟩
    rw [Command.run, run_map_eq, insertEqualHintWith, run_owned_bind hhint.1, run_insertEqualWithBy_refused hrefused]
    rfl
  | _ => cases hbuilds

end Refused

/-- An insertion that builds its item does what the plain insertion of the item
    does, whatever the comparator and the hint: it calls the constructor once
    and gives the same answer after the same comparisons, and leaves the same
    tree. An item that goes in leaves the same store as well; with another one
    in its way, the slot asked for has been given back, and in an arena no later
    request tells. Where no slot is to be had it fails at once, with no call of
    the constructor, even if an item is in the way. -/
theorem built_in_place_eq_inserted {f : Forest key} {ε₀ : Type} {c : Command α κ ε}
    (hf : f.Reachable fun f (c : Forest.Command α κ ε₀) => c.OnLive f) (ht : t ∈ f.trees)
    (hbuilds : c.build? = some build) (hlive : c.OnLive t) :
    (∀ item slot reserved, build () = .ok item → t.store.allocate = .ok (.ok slot, reserved) →
      ∃ reply, t.MatchesPlain c item slot reserved reply) ∧
    ∀ error store, t.store.allocate = .ok (.error error, store) →
      ∃ reply, (c.run.run t).answer = .ok reply ∧ reply.failure? = some (.alloc error) ∧ reply.calls = 0 ∧
        (c.run.run t).asked = [] ∧ t.Refused (c.run.run t).state 0 := by
  obtain ⟨entries, o, h⟩ := hf.represents_onLive ht
  constructor
  · intro item slot reserved hbuild hslot
    exact h.exists_matchesPlain hbuilds hlive hslot hbuild
  · intro error store hrefused
    obtain ⟨reply, hrun, hfailure, hcalls⟩ := exists_refused hrefused hbuilds hlive
    rw [hrun]
    exact ⟨reply, rfl, hfailure, hcalls, rfl, refused_of_allocate hrefused⟩

/-- In an arena with 1 and 2, building one more 2 in its slot is answered with
    the 2 that is there, as inserting it is; the arena has one slot more then,
    and no later request tells. With the 1 as its hint and among equivalent
    items, the new 2 goes in. Under a limit of one item the constructor is not
    called, though its 2 is stored already. -/
theorem built_in_place_eq_inserted_duplicate :
    ∃ (build : Unit → Except String Nat) (t u : Tree (id : Nat → Nat)),
      t.items = .ok [1, 2] ∧ u.items = .ok [2] ∧ build () = .ok 2 ∧
      ((Command.insertUniqueWith build).run.run t).answer =
        .ok (.uniqueWith { calls := 1, result := .ok (⟨some 1, 1⟩, false) }) ∧
      ((Command.insertUniqueWith build).run.run t).state.store.capacity = 3 ∧
      AsIfNever String t ((Command.insertUniqueWith build).run.run t).state ∧
      ((Command.insertEqualHintWith ⟨some 0, 1⟩ build).run.run t).state =
        ((Command.insertEqualHint ⟨some 0, 1⟩ 2 : Command Nat Nat String).run.run t).state ∧
      ((Command.insertUniqueWith build).run.run u).answer =
        .ok (.uniqueWith { calls := 0, result := .error (.alloc .noSlot) }) ∧
      u.Refused ((Command.insertUniqueWith build).run.run u).state 0 := by
  let build : Unit → Except String Nat := fun _ => .ok 2
  have h₀ : Forest.Reachable (fun f (c : Forest.Command Nat Nat String) => c.OnLive f) (.empty (id : Nat → Nat)) :=
    .empty
  have h₁ := h₀.step (c := .plant (fun a b => decide (a < b)) (.arena .empty)) Arena.sound_empty
  have h₂ := h₁.step (c := .onTree 0 (.insertUnique 1)) ⟨_, rfl, nofun⟩
  have h₃ := h₂.step (c := .onTree 0 (.insertUnique 2)) ⟨_, rfl, nofun⟩
  have h₄ := h₃.step (c := .plant (fun a b => decide (a < b)) (.limited (.arena .empty) 1)) Arena.sound_empty
  have h₅ := h₄.step (c := .onTree 1 (.insertUnique 2)) ⟨_, rfl, nofun⟩
  obtain ⟨hblocked, _⟩ := built_in_place_eq_inserted h₅ (Array.mem_of_getElem? (i := 0) rfl)
    (c := .insertUniqueWith build) rfl nofun
  obtain ⟨reply, hmatch⟩ := hblocked 2 2 _ rfl rfl
  obtain rfl : reply = .unique (.ok (⟨some 1, 1⟩, false)) := Except.ok.inj (hmatch.plain.symm.trans rfl)
  obtain ⟨hkept, _, hlater⟩ := hmatch.blocked rfl
  rw [hkept] at hlater
  obtain ⟨hinserted, _⟩ := built_in_place_eq_inserted h₅ (Array.mem_of_getElem? (i := 0) rfl)
    (c := .insertEqualHintWith ⟨some 0, 1⟩ build) rfl (by
      intro p hp
      obtain rfl := List.mem_singleton.mp hp
      exact ⟨rfl, by rintro slot ⟨rfl⟩; decide +kernel⟩)
  obtain ⟨reply, hmatch'⟩ := hinserted 2 2 _ rfl rfl
  obtain rfl : reply = .equal (.ok ⟨some 2, 1⟩) := Except.ok.inj (hmatch'.plain.symm.trans rfl)
  obtain ⟨_, hrefused⟩ := built_in_place_eq_inserted h₅ (Array.mem_of_getElem? (i := 1) rfl)
    (c := .insertUniqueWith build) rfl nofun
  obtain ⟨_, _, _, _, _, hleft⟩ := hrefused .noSlot _ rfl
  exact ⟨build, _, _, rfl, rfl, rfl, hmatch.answer, rfl, hlater rfl String, hmatch'.inserted rfl, rfl, hleft⟩

end Tree

end RedBlack
