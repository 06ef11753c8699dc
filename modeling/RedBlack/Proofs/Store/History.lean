import RedBlack.Proofs.Store.Supply

namespace RedBlack

namespace Arena

variable {α : Type}

/-- What may happen to an arena. -/
inductive Event (α : Type) where
  | allocated (slot : Slot)
  /-- A slot was asked for, and there was none. -/
  | refused
  | constructed (slot : Slot) (item : α)
  | released (slot : Slot)

/-- What has happened to an arena, the last event first. -/
abbrev History (α : Type) := List (Event α)

namespace History

/-- What the slots hold: a slot handed out waits for its item until it gets one,
    and is not in use any more once it is released. -/
def holding : History α → Slot → Option (Option α)
  | [] => fun _ => none
  | .allocated slot :: h => Function.update (holding h) slot (some none)
  | .refused :: h => holding h
  | .constructed slot item :: h => Function.update (holding h) slot (some (some item))
  | .released slot :: h => Function.update (holding h) slot none

/-- The slots handed out and not released since, the one handed out last
    first. -/
def occupied : History α → List Slot
  | [] => []
  | .allocated slot :: h => slot :: occupied h
  | .refused :: h => occupied h
  | .constructed _ _ :: h => occupied h
  | .released slot :: h => (occupied h).erase slot

/-- The slots released and not handed out since, the one released last first.
    The free list of an arena is this stack. -/
def vacated : History α → List Slot
  | [] => []
  | .allocated slot :: h => (vacated h).erase slot
  | .refused :: h => vacated h
  | .constructed _ _ :: h => vacated h
  | .released slot :: h => slot :: vacated h

/-- How many slots were in use at once when the most were. This is how far an
    arena has grown. -/
def peak : History α → Nat
  | [] => 0
  | e :: h => max (peak h) (occupied (e :: h)).length

/-- An item is put only into a slot that waits for one, and only slots in use
    are released. -/
def Legal (h : History α) : Event α → Prop
  | .allocated _ | .refused => True
  | .constructed slot _ => h.holding slot = some none
  | .released slot => h.holding slot ≠ none

end History

/-- The request behind an event, and how it was answered. -/
inductive Step (a : Arena α) : Event α → Arena α → Prop where
  | allocated {slot : Slot} {b : Arena α} : Arena.allocate a = .ok (.ok slot, b) → a.Step (.allocated slot) b
  | refused {error : AllocError} {b : Arena α} : Arena.allocate a = .ok (.error error, b) → a.Step .refused b
  | constructed {slot : Slot} {item : α} {b : Arena α} : a.construct slot item = .ok b →
    a.Step (.constructed slot item) b
  | released {slot : Slot} {content : Option α} {b : Arena α} : a.deallocate slot = .ok (content, b) →
    a.Step (.released slot) b

/-- The arenas that legal requests lead to from a new one, each with its
    history. -/
inductive Run : History α → Arena α → Prop where
  | start : Run [] .empty
  | step {h : History α} {a b : Arena α} {e : Event α} : Run h a → h.Legal e → a.Step e b → Run (e :: h) b

variable {a b : Arena α} {h : History α} {slot : Slot} {item : α} {frees frees' : List Slot} {next : Option Slot}

theorem Chain.unique (hf : a.Chain next frees) (hf' : a.Chain next frees') : frees = frees' := by
  induction frees generalizing next frees' with
  | nil =>
    obtain rfl : next = none := hf
    cases frees' with
    | nil => rfl
    | cons slot rest => cases hf'.1
  | cons slot rest ih =>
    obtain ⟨rfl, after, hcell, hrest⟩ := hf
    cases frees' with
    | nil => cases hf'
    | cons slot' rest' =>
      obtain ⟨hslot, after', hcell', hrest'⟩ := hf'
      cases hslot
      rw [hcell] at hcell'
      cases hcell'
      rw [ih hrest hrest']

/-- The free list of a sound arena has no other slots than the free ones, and
    none of them twice. -/
theorem Sound.chain (ha : a.Sound) (hchain : a.Chain a.free frees) :
    frees.Nodup ∧ ∀ slot, slot ∈ frees ↔ ∃ next, a.cells[slot]? = some (.free next) := by
  obtain ⟨frees', hchain', hnodup, hall⟩ := ha.free_list
  obtain rfl := hchain.unique hchain'
  exact ⟨hnodup, fun slot => ⟨hchain.cell_free, fun ⟨next, hcell⟩ => hall slot next hcell⟩⟩

/-- What an arena and its history have in common. Each legal request has a lemma
    that keeps it, and every run follows. -/
structure Tracks (a : Arena α) (h : History α) : Prop where
  sound : a.Sound
  chain : a.Chain a.free h.vacated
  use : a.use = h.holding
  occupied_nodup : h.occupied.Nodup
  mem_occupied : ∀ slot, slot ∈ h.occupied ↔ h.holding slot ≠ none
  size : a.cells.size = h.occupied.length + h.vacated.length
  peak : a.cells.size = h.peak

namespace Tracks

theorem start : (empty : Arena α).Tracks [] where
  sound := sound_empty
  chain := rfl
  use := funext use_empty
  occupied_nodup := List.nodup_nil
  mem_occupied := by simp [History.occupied, History.holding]
  size := rfl
  peak := rfl

/-- Handing out a slot takes the top off the stack of those released. The arena
    grows only if there is none. -/
theorem pop (ht : a.Tracks h) (hrun : Arena.allocate a = .ok (.ok slot, b)) (hroom : a.HasRoom) :
    b.Chain b.free (h.vacated.erase slot) ∧ b.cells.size = h.occupied.length + 1 + (h.vacated.erase slot).length ∧
      b.cells.size = max a.cells.size (h.occupied.length + 1) := by
  have hsize := ht.size
  have hchain := ht.chain
  cases hvacated : h.vacated with
  | nil =>
    rw [hvacated] at hchain hsize
    have hfree : a.free = none := hchain
    have hlt : a.cells.size < Handle.maxSlots := hroom.resolve_left (fun hne => hne hfree)
    cases hrun.symm.trans (allocate_nil hfree hlt)
    rw [List.length_nil] at hsize
    simp only [Array.size_push, List.erase_nil, List.length_nil]
    exact ⟨hfree, by omega, by omega⟩
  | cons first rest =>
    rw [hvacated] at hchain hsize
    obtain ⟨b', hfirst, hrest, hcells⟩ := hchain.allocate_cons (List.nodup_cons.mp (ht.sound.chain hchain).1).1
    cases hrun.symm.trans hfirst
    rw [List.length_cons] at hsize
    rw [List.erase_cons_head, hcells]
    exact ⟨hrest, by omega, by omega⟩

theorem allocated (ht : a.Tracks h) (hrun : Arena.allocate a = .ok (.ok slot, b)) :
    b.Tracks (.allocated slot :: h) := by
  obtain ⟨_, _, hrun', hsound, hroom, hfree, huse⟩ | ⟨hrun', _⟩ := ht.sound.allocate
  · cases hrun.symm.trans hrun'
    obtain ⟨hchain, hsize, hpeak⟩ := ht.pop hrun hroom
    rw [ht.use] at huse hfree
    have hnew : slot ∉ h.occupied := by
      rw [ht.mem_occupied, hfree]
      exact fun hne => hne rfl
    refine ⟨hsound, hchain, huse, List.nodup_cons.mpr ⟨hnew, ht.occupied_nodup⟩, ?_, hsize, ?_⟩
    · intro s
      by_cases hs : s = slot
      · simp [History.occupied, History.holding, hs]
      · simp [History.occupied, History.holding, hs, ht.mem_occupied]
    · rw [hpeak, ht.peak]
      rfl
  · cases hrun.symm.trans hrun'

theorem refused {error : AllocError} (ht : a.Tracks h) (hrun : Arena.allocate a = .ok (.error error, b)) :
    b.Tracks (.refused :: h) := by
  obtain ⟨_, _, hrun', _⟩ | ⟨hrun', _⟩ := ht.sound.allocate
  · cases hrun.symm.trans hrun'
  · cases hrun.symm.trans hrun'
    refine ⟨ht.sound, ht.chain, ht.use, ht.occupied_nodup, ht.mem_occupied, ht.size, ?_⟩
    have hsize := ht.size
    have hpeak := ht.peak
    simp only [History.peak, History.occupied]
    omega

theorem constructed (ht : a.Tracks h) (hslot : h.holding slot = some none) (hrun : a.construct slot item = .ok b) :
    b.Tracks (.constructed slot item :: h) := by
  have huse : a.use slot = some none := by rw [ht.use, hslot]
  obtain ⟨_, hrun', hsound, huse'⟩ := ht.sound.construct huse item
  cases hrun.symm.trans hrun'
  have hcells : ∃ c : Cell α, b = { a with cells := a.cells.setIfInBounds slot c } := by
    rw [Arena.construct] at hrun
    split at hrun
    · cases hrun
      exact ⟨_, rfl⟩
    · cases hrun
    · cases hrun
  obtain ⟨c, rfl⟩ := hcells
  refine ⟨hsound, ht.chain.set (ht.chain.not_mem huse) _ _, by rw [huse', ht.use]; rfl, ht.occupied_nodup, ?_, ?_, ?_⟩
  · intro s
    by_cases hs : s = slot
    · simp [History.occupied, History.holding, hs, ht.mem_occupied, hslot]
    · simp [History.occupied, History.holding, hs, ht.mem_occupied]
  · rw [Array.size_setIfInBounds]
    exact ht.size
  · have hsize := ht.size
    have hpeak := ht.peak
    simp only [Array.size_setIfInBounds, History.peak, History.occupied]
    omega

theorem released {content : Option α} (ht : a.Tracks h) (hrun : a.deallocate slot = .ok (content, b)) :
    b.Tracks (.released slot :: h) := by
  obtain ⟨huse, hlt, rfl⟩ := deallocate_eq_ok hrun
  obtain ⟨hsound, huse'⟩ := ht.sound.release huse
  have hmem : slot ∈ h.occupied := by
    rw [ht.mem_occupied, ← ht.use, huse]
    simp
  have hlength := List.length_erase_of_mem hmem
  have hpos := List.length_pos_of_mem hmem
  have hsize := ht.size
  have hpeak := ht.peak
  refine ⟨hsound, ⟨rfl, a.free, by simp [Arena.release, hlt], ht.chain.set (ht.chain.not_mem huse) _ _⟩,
    by rw [huse', ht.use]; rfl, ht.occupied_nodup.erase slot, ?_, ?_, ?_⟩
  · intro s
    by_cases hs : s = slot
    · simp [History.occupied, History.holding, hs, ht.occupied_nodup.mem_erase_iff]
    · simp [History.occupied, History.holding, hs, ht.occupied_nodup.mem_erase_iff, ht.mem_occupied]
  · simp only [Arena.release, Array.size_setIfInBounds, History.occupied, History.vacated, List.length_cons]
    omega
  · simp only [Arena.release, Array.size_setIfInBounds, History.peak, History.occupied]
    omega

/-- One legal request keeps an arena and its history together. -/
theorem step {e : Event α} (ht : a.Tracks h) (hlegal : h.Legal e) (hstep : a.Step e b) : b.Tracks (e :: h) := by
  cases hstep with
  | allocated hrun => exact ht.allocated hrun
  | refused hrun => exact ht.refused hrun
  | constructed hrun => exact ht.constructed hlegal hrun
  | released hrun => exact ht.released hrun

end Tracks

theorem Run.tracks (hrun : Run h a) : a.Tracks h := by
  induction hrun with
  | start => exact .start
  | step _ hlegal hstep ih => exact ih.step hlegal hstep

theorem Tracks.holding_eq_none (ht : a.Tracks h) (hrun : Arena.allocate a = .ok (.ok slot, b)) :
    h.holding slot = none := by
  obtain ⟨_, _, hrun', _, _, hfree, _⟩ | ⟨hrun', _⟩ := ht.sound.allocate
  · cases hrun.symm.trans hrun'
    rw [← ht.use, hfree]
  · cases hrun.symm.trans hrun'

/-- A slot keeps what it holds until it is released, and one that waits for an
    item waits until it gets one. -/
theorem Run.holding_append {content : Option α} {later : History α} (hrun : Run (later ++ h) a)
    (hcontent : h.holding slot = some content) (hreleased : .released slot ∉ later)
    (hbuilt : content = none → ∀ item, .constructed slot item ∉ later) :
    History.holding (later ++ h) slot = some content := by
  induction later generalizing a with
  | nil => exact hcontent
  | cons e later ih =>
    obtain ⟨hne, hreleased⟩ := List.ne_and_not_mem_of_not_mem_cons hreleased
    obtain _ | ⟨hbefore, hlegal, hstep⟩ := hrun
    have hbefore : Run (later ++ h) _ := hbefore
    have hheld := ih hbefore hreleased fun hnone item => List.not_mem_of_not_mem_cons (hbuilt hnone item)
    cases hstep with
    | @allocated s _ hallocate =>
      have hs : slot ≠ s := by
        rintro rfl
        rw [hbefore.tracks.holding_eq_none hallocate] at hheld
        cases hheld
      exact (Function.update_of_ne hs _ _).trans hheld
    | refused _ => exact hheld
    | @constructed s item _ _ =>
      have hs : slot ≠ s := by
        rintro rfl
        have hlegal : History.holding (later ++ h) slot = some none := hlegal
        rw [hlegal] at hheld
        exact hbuilt (Option.some.inj hheld).symm item List.mem_cons_self
      exact (Function.update_of_ne hs _ _).trans hheld
    | @released s _ _ _ =>
      have hs : slot ≠ s := by
        rintro rfl
        exact hne rfl
      exact (Function.update_of_ne hs _ _).trans hheld

/-- How an arena answers the next request for a slot: with the slot on top of
    the stack, with a new one where the stack is empty, and with a refusal where
    there are no numbers left for new ones. -/
inductive Handout (a : Arena α) : List Slot → Prop where
  | reused {slot : Slot} {rest : List Slot} {b : Arena α} : Arena.allocate a = .ok (.ok slot, b) →
    b.capacity = a.capacity → a.Handout (slot :: rest)
  | fresh {b : Arena α} : a.capacity < Handle.maxSlots → Arena.allocate a = .ok (.ok a.capacity, b) →
    b.capacity = a.capacity + 1 → a.Handout []
  | full : a.capacity = Handle.maxSlots → Arena.allocate a = .ok (.error .noSlot, a) → a.Handout []

/-- What can be told of an arena from its history alone: which slots are in use
    and what they hold, which one is handed out next, and how many there are. -/
structure Accounted (a : Arena α) (h : History α) : Prop where
  /-- The free list ends, and it visits the slots released and not handed out
      since, the one released last first. -/
  free_list : a.Chain a.free h.vacated
  free_list_nodup : h.vacated.Nodup
  mem_free_list : ∀ slot, slot ∈ h.vacated ↔ ∃ next, a.cells[slot]? = some (.free next)
  occupied_nodup : h.occupied.Nodup
  mem_occupied : ∀ slot, slot ∈ h.occupied ↔ a.use slot ≠ none
  capacity : a.capacity = h.peak
  handout : a.Handout h.vacated
  /-- No slot in use is handed out, and none whose number is set aside. -/
  allocated : ∀ slot b, Arena.allocate a = .ok (.ok slot, b) → slot ∉ h.occupied ∧
    Handle.ofIndex slot = .ok (.node slot) ∧ slot ≠ Handle.nil.number ∧ slot ≠ Handle.header.number
  /-- A refusal changes nothing. -/
  refused : Arena.allocate a = .ok (.error .noSlot, a) ↔ h.vacated = [] ∧ a.capacity = Handle.maxSlots
  eq_of_refused : ∀ error b, Arena.allocate a = .ok (.error error, b) → b = a
  /-- A slot that waits for an item takes it. -/
  construct : ∀ slot item, h.holding slot = some none → ∃ b, a.construct slot item = .ok b
  /-- A slot in use is taken back. -/
  deallocate : ∀ slot, slot ∈ h.occupied → ∃ content b, a.deallocate slot = .ok (content, b)
  /-- An item stays in its slot until the slot is released, and comes back
      then. -/
  built : ∀ later slot item earlier, h = later ++ .constructed slot item :: earlier → .released slot ∉ later →
    a.read slot = .ok item ∧ ∃ b, a.deallocate slot = .ok (some item, b)
  /-- A slot that was handed out and got no item is taken back without one. -/
  reserved : ∀ later slot earlier, h = later ++ .allocated slot :: earlier → .released slot ∉ later →
    (∀ item, .constructed slot item ∉ later) → ∃ b, a.deallocate slot = .ok (none, b)

theorem Tracks.handout (ht : a.Tracks h) : a.Handout h.vacated := by
  have hchain := ht.chain
  cases hvacated : h.vacated with
  | nil =>
    rw [hvacated] at hchain
    have hfree : a.free = none := hchain
    have hbounded := ht.sound.bounded
    by_cases hlt : a.cells.size < Handle.maxSlots
    · exact .fresh hlt (allocate_nil hfree hlt) (Array.size_push _)
    · exact .full (show a.cells.size = _ by omega) (by simp [Arena.allocate, hfree, hlt])
  | cons slot rest =>
    rw [hvacated] at hchain
    obtain ⟨b, hrun, _, hsize⟩ := hchain.allocate_cons (List.nodup_cons.mp (ht.sound.chain hchain).1).1
    exact .reused hrun hsize

theorem Tracks.lt_maxSlots (ht : a.Tracks h) (hrun : Arena.allocate a = .ok (.ok slot, b)) :
    slot < Handle.maxSlots := by
  have htracks := ht.allocated hrun
  obtain ⟨c, hcell, _⟩ := exists_cell_of_use (show b.use slot = some none by rw [htracks.use]; simp [History.holding])
  exact Nat.lt_of_lt_of_le (lt_size_of_cell hcell) htracks.sound.bounded

theorem Handout.refused_iff (hh : a.Handout frees) :
    Arena.allocate a = .ok (.error .noSlot, a) ↔ frees = [] ∧ a.capacity = Handle.maxSlots := by
  cases hh with
  | reused hrun _ => simp [hrun]
  | fresh hlt hrun _ => simp [hrun, Nat.ne_of_lt hlt]
  | full hfull hrun => simp [hrun, hfull]

theorem Handout.eq_of_refused {error : AllocError} (hh : a.Handout frees)
    (hrun : Arena.allocate a = .ok (.error error, b)) : b = a := by
  cases hh with
  | reused hrun' _ => cases hrun.symm.trans hrun'
  | fresh _ hrun' _ => cases hrun.symm.trans hrun'
  | full _ hrun' =>
    cases hrun.symm.trans hrun'
    rfl

/-- Every arena that legal requests lead to keeps its slots in order. -/
theorem Run.accounted (hrun : Run h a) : a.Accounted h where
  free_list := hrun.tracks.chain
  free_list_nodup := (hrun.tracks.sound.chain hrun.tracks.chain).1
  mem_free_list := (hrun.tracks.sound.chain hrun.tracks.chain).2
  occupied_nodup := hrun.tracks.occupied_nodup
  mem_occupied := by
    intro slot
    rw [hrun.tracks.mem_occupied, hrun.tracks.use]
  capacity := hrun.tracks.peak
  handout := hrun.tracks.handout
  allocated := by
    intro slot b hallocate
    have hlt := hrun.tracks.lt_maxSlots hallocate
    refine ⟨?_, by simp [Handle.ofIndex, hlt], Nat.ne_of_lt (Nat.lt_succ_of_lt hlt), Nat.ne_of_lt hlt⟩
    rw [hrun.tracks.mem_occupied]
    exact fun hne => hne (hrun.tracks.holding_eq_none hallocate)
  refused := hrun.tracks.handout.refused_iff
  eq_of_refused := fun _ _ => hrun.tracks.handout.eq_of_refused
  construct := by
    intro slot item hslot
    rw [← hrun.tracks.use] at hslot
    obtain ⟨b, hb, _⟩ := hrun.tracks.sound.construct hslot item
    exact ⟨b, hb⟩
  deallocate := by
    intro slot hslot
    rw [hrun.tracks.mem_occupied, ← hrun.tracks.use] at hslot
    obtain ⟨content, huse⟩ := Option.ne_none_iff_exists'.mp hslot
    obtain ⟨b, hb, _⟩ := hrun.tracks.sound.deallocate huse
    exact ⟨content, b, hb⟩
  built := by
    rintro later slot item earlier rfl hreleased
    have huse : a.use slot = some (some item) := by
      rw [hrun.tracks.use]
      exact hrun.holding_append (by simp [History.holding]) hreleased nofun
    obtain ⟨b, hb, _⟩ := hrun.tracks.sound.deallocate huse
    exact ⟨read_eq_ok huse, b, hb⟩
  reserved := by
    rintro later slot earlier rfl hreleased hbuilt
    have huse : a.use slot = some none := by
      rw [hrun.tracks.use]
      exact hrun.holding_append (by simp [History.holding]) hreleased fun _ => hbuilt
    obtain ⟨b, hb, _⟩ := hrun.tracks.sound.deallocate huse
    exact ⟨b, hb⟩

/-- Three slots are taken and the first two released: the second one is handed
    out next. -/
theorem Run.accounted_of_two_released :
    Run [.released 1, .released 0, .allocated 2, .constructed 1 7, .allocated 1, .allocated 0]
        { cells := #[.free none, .free (some 0), .reserved], free := some (1 : Slot) } ∧
      Accounted { cells := #[.free none, .free (some 0), .reserved], free := some (1 : Slot) }
        [.released 1, .released 0, .allocated 2, .constructed 1 7, .allocated 1, .allocated 0] := by
  have hrun : Run [.released 1, .released 0, .allocated 2, .constructed 1 7, .allocated 1, .allocated 0]
      { cells := #[.free none, .free (some 0), .reserved], free := some (1 : Slot) } := by
    refine .step (.step (.step (.step (.step (.step .start trivial (.allocated rfl)) trivial (.allocated rfl)) ?_
      (.constructed rfl)) trivial (.allocated rfl)) ?_ (.released rfl)) ?_ (.released rfl)
    · rfl
    · exact nofun
    · exact nofun
  exact ⟨hrun, hrun.accounted⟩

end Arena

end RedBlack
