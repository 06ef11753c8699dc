import RedBlack.Proofs.Shape.Pruning

namespace RedBlack

namespace Repaired

/-- The repair after one more round before it. -/
def after (work : Round) (r : Repaired) : Repaired :=
  { r with rounds := work :: r.rounds }

/-- A repair that climbs until it comes to its last round. Every other round
    only moves the defect, and only the last one turns nodes. -/
structure Climbs (r : Repaired) (limit : Nat) : Prop where
  /-- Before the last round nothing is turned and no sibling is raised. -/
  idle : ∀ round ∈ r.rounds.dropLast, round = {}
  rotations : r.rotations ≤ limit

variable {r : Repaired} {limit : Nat}

theorem climbs_nil (shape : Shape) (limit : Nat) : Climbs { shape } limit :=
  ⟨nofun, Nat.zero_le limit⟩

theorem climbs_singleton {work : Round} (shape : Shape) (h : work.rotations ≤ limit) :
    Climbs { shape, rounds := [work] } limit :=
  ⟨nofun, h⟩

theorem Climbs.after (h : r.Climbs limit) : (r.after {}).Climbs limit := by
  refine ⟨?_, ?_⟩
  · cases hrounds : r.rounds with
    | nil => simp [Repaired.after, hrounds]
    | cons work rest =>
      have hidle := h.idle
      rw [hrounds] at hidle
      simpa [Repaired.after, hrounds] using hidle
  · rw [Repaired.rotations, Repaired.after, List.foldr_cons, Nat.zero_add]
    exact h.rotations

theorem Climbs.countP_raised_le (h : r.Climbs limit) : r.rounds.countP (·.raised) ≤ 1 := by
  obtain hrounds | ⟨early, last, hrounds⟩ := r.rounds.eq_nil_or_concat'
  · simp [hrounds]
  · have hidle := h.idle
    rw [hrounds, List.dropLast_concat] at hidle
    have hnone : early.countP (·.raised) = 0 :=
      List.countP_eq_zero.mpr fun round hround => by simp [hidle round hround]
    rw [hrounds, List.countP_append, hnone, Nat.zero_add]
    exact List.countP_le_length

end Repaired

/-- What a round of a loop comes to. -/
inductive Progress where
  /-- The defect is mended. -/
  | mended (work : Round) (shape : Shape)
  /-- The defect lies in the subtree at the end of another path now. -/
  | moved (work : Round) (path : Path) (x : Shape)
  deriving Repr

namespace Progress

/-- Leaves what is still to be done to a repair. -/
def resume (repair : Path → Shape → Except Fault Repaired) : Progress → Except Fault Repaired
  | mended work shape => .ok { shape, rounds := [work] }
  | moved work p x => (repair p x).map (Repaired.after work)

/-- A round that mends the defect by so many rotations, or else only moves it up
    to the end of the given path. -/
def Climbs (limit : Nat) (up : Path) : Progress → Prop
  | mended work _ => work.rotations ≤ limit
  | moved work q _ => work = {} ∧ q = up

end Progress

/-- A repair as a loop; its variable is the subtree with the defect, at the end
    of a path. A round works where the defect lies and either mends it or moves
    it to another subtree, and the loop goes on as long as a round is due
    there. -/
structure Loop where
  /-- Whether a round is due. -/
  due : Path → Shape → Bool
  round : Path → Shape → Except Fault Progress
  /-- What is done once no round is due. -/
  finish : Path → Shape → Except Fault Shape

namespace Loop

/-- Runs a loop for a number of rounds at most; `none` if another one is due
    after these. -/
def run (loop : Loop) : Nat → Path → Shape → Except Fault (Option Repaired)
  | 0, p, x => if loop.due p x then return none else return some { shape := ← loop.finish p x }
  | limit + 1, p, x =>
    if loop.due p x then do
      match ← loop.round p x with
      | .mended work shape => return some { shape, rounds := [work] }
      | .moved work p x => return (← loop.run limit p x).map (Repaired.after work)
    else return some { shape := ← loop.finish p x }

/-- The loop ends with a result, and in as many rounds as the result tells. -/
def EndsWith (loop : Loop) (p : Path) (x : Shape) (r : Repaired) : Prop :=
  ∀ limit, loop.run limit p x = .ok (if r.rounds.length ≤ limit then some r else none)

/-- A repair that does one round and goes on from there as the loop does. -/
def Follows (loop : Loop) (repair : Path → Shape → Except Fault Repaired) : Prop :=
  ∀ p x, repair p x =
    if loop.due p x then loop.round p x >>= Progress.resume repair else return { shape := ← loop.finish p x }

variable {loop : Loop} {repair : Path → Shape → Except Fault Repaired} {p : Path} {x : Shape} {r : Repaired}

/-- How a repair that follows a loop goes. -/
inductive Goes (loop : Loop) (repair : Path → Shape → Except Fault Repaired) (p : Path) (x : Shape) :
    Repaired → Prop where
  | done {shape : Shape} (hdue : loop.due p x = false) (hfinish : loop.finish p x = .ok shape) :
    Goes loop repair p x { shape }
  /-- The first round is the last one. -/
  | mended {work : Round} {shape : Shape} (hdue : loop.due p x = true)
    (hround : loop.round p x = .ok (.mended work shape)) : Goes loop repair p x { shape, rounds := [work] }
  /-- What the first round leaves is a repair of its own. -/
  | moved {work : Round} {q : Path} {y : Shape} {above : Repaired} (hdue : loop.due p x = true)
    (hround : loop.round p x = .ok (.moved work q y)) (habove : repair q y = .ok above) :
    Goes loop repair p x (above.after work)

theorem Follows.goes (h : loop.Follows repair) (hr : repair p x = .ok r) : loop.Goes repair p x r := by
  rw [h p x] at hr
  cases hdue : loop.due p x with
  | false =>
    rw [hdue, if_neg (by simp), bind_eq_ok] at hr
    obtain ⟨shape, hfinish, ⟨⟩⟩ := hr
    exact .done hdue hfinish
  | true =>
    rw [hdue, if_pos rfl, bind_eq_ok] at hr
    obtain ⟨progress, hround, hresume⟩ := hr
    cases progress with
    | mended work shape =>
      obtain rfl := Except.ok.inj hresume
      exact .mended hdue hround
    | moved work q y =>
      obtain ⟨above, habove, rfl⟩ := map_eq_ok.mp hresume
      exact .moved hdue hround habove

theorem Follows.endsWith (h : loop.Follows repair) (hr : repair p x = .ok r) : loop.EndsWith p x r := by
  intro limit
  induction limit generalizing p x r with
  | zero =>
    cases h.goes hr with
    | done hdue hfinish => simp [run, hdue, hfinish]
    | mended hdue => simp [run, hdue]
    | moved hdue => simp [run, hdue, Repaired.after]
  | succ limit ih =>
    cases h.goes hr with
    | done hdue hfinish => simp [run, hdue, hfinish]
    | mended hdue hround => simp [run, hdue, hround]
    | @moved work q y above hdue hround habove =>
      have hrest := ih habove
      simp only [run, if_pos hdue, hround, ok_bind, hrest]
      by_cases hlimit : above.rounds.length ≤ limit
      · simp [hlimit, Repaired.after]
      · simp [hlimit, Repaired.after]

end Loop

namespace Frame

/-- A settlement takes two rotations at most, and a lack is passed on under the
    colour that was there. -/
def Settlement.Bounded (color : Color) : Settlement → Prop
  | .settled _ rotations => rotations ≤ 2
  | .short t => t.color = color

theorem lend_bounded {f : Frame} {x lender : Shape} {turns : Nat} {out : Settlement} (hturns : turns ≤ 1)
    (h : f.lend x lender turns = .ok out) : out.Bounded f.color := by
  obtain ⟨t, _, rfl⟩ := map_eq_ok.mp h
  exact Nat.succ_le_succ hturns

theorem settle_bounded {f : Frame} {x : Shape} {out : Settlement} (h : f.settle x = .ok out) :
    out.Bounded f.color := by
  by_cases hsibling : f.sibling = .nil
  · rw [settle, hsibling] at h
    cases h
  rw [settle_eq_lend x hsibling] at h
  split at h
  · obtain rfl := Except.ok.inj h
    exact Shape.color_branch ..
  split at h
  · exact lend_bounded (Nat.zero_le 1) h
  · obtain ⟨lender, _, hlend⟩ := bind_eq_ok.mp h
    exact lend_bounded (Nat.le_refl 1) hlend

end Frame

namespace Path

/-- Turns the subtree `lower` over the grandparent `g`, which mends the
    defect. -/
def turnOver (up : Path) (g : Frame) (lower : Shape) (turns : Nat) : Except Fault Progress :=
  ((Shape.branch g.side .red g.slot (lower.paint .black) g.sibling).rotate g.side.opposite).map fun top =>
    .mended { rotations := turns + 1 } ((fill up top).paint .black)

/-- A round on a red node under a red parent. A red uncle hands the defect on to
    the grandparent; beside a black one the rotations mend it. -/
def redRound : Path → Shape → Except Fault Progress
  | p :: g :: up, x =>
    if g.sibling.isRed then
      .ok (.moved {} up (.branch g.side .red g.slot ((p.close x).paint .black) (g.sibling.paint .black)))
    else if p.side = g.side then turnOver up g (p.close x) 0
    else (p.close x).rotate g.side >>= (turnOver up g · 1)
  | _, _ => .error (.dereference .header)

/-- The loop of the repair of red nodes; it goes on while the parent is red. -/
def redLoop : Loop where
  due p _ := p.head?.any fun f => f.color = .red
  round := redRound
  finish p x := (fill p x).recolor .black

/-- What the settlement below a node that is not raised comes to in a round. -/
def settledRound (up : Path) : Frame.Settlement → Progress
  | .settled t rotations => .mended { rotations } (fill up t)
  | .short t => .moved {} up t

/-- What the settlement below a raised sibling comes to in a round. A lack that
    is left moves below the raised node and so no nearer to the root, but there
    the loop ends, since the parent has turned red. -/
def raisedRound (up : Path) : Frame.Settlement → Progress
  | .settled t rotations => .mended { rotations := rotations + 1, raised := true } (fill up t)
  | .short t => .moved { rotations := 1, raised := true } up t

/-- A round on a subtree that lacks a black node. A red sibling is raised over
    the parent first, so that the subtree gets a black one; then the lack is
    settled or passed to the parent. -/
def lackRound : Path → Shape → Except Fault Progress
  | [], _ => .error (.dereference .header)
  | f :: up, x =>
    match f.sibling with
    | .node .red left slot right =>
      let raised := Shape.node .black left slot right
      let upper : Frame := ⟨f.side, .black, slot, raised.child f.side.opposite⟩
      (Frame.settle { f with color := .red, sibling := raised.child f.side } x).map (raisedRound (upper :: up))
    | _ => (f.settle x).map (settledRound up)

/-- The loop of the repair of a missing black node; it goes on while the subtree
    is black and not the whole. What is missing at the end is left as it is. -/
def lackLoop : Loop where
  due p x := !p.isEmpty && !x.isRed
  round := lackRound
  finish p x := .ok (fill p (x.paint .black))

/-- The frames that a red sibling is raised into are those of a rotation at the
    parent. -/
theorem rotate_raised (f : Frame) (slot : Slot) (x near far : Shape) :
    (Frame.close { f with color := .red, sibling := .branch f.side .black slot near far } x).rotate f.side =
      .ok (Frame.close ⟨f.side, .black, slot, far⟩ (Frame.close { f with color := .red, sibling := near } x)) :=
  Shape.rotate_branch ..

theorem turnOver_resume (up : Path) (g : Frame) (lower : Shape) (turns : Nat)
    (repair : Path → Shape → Except Fault Repaired) :
    turnOver up g lower turns >>= Progress.resume repair = raise up g lower turns := by
  rw [turnOver, raise]
  cases (Shape.branch g.side .red g.slot (lower.paint .black) g.sibling).rotate g.side.opposite <;> rfl

theorem repairRed_follows : redLoop.Follows repairRed := by
  intro p x
  match p with
  | [] => rfl
  | [p] =>
    rw [repairRed]
    cases hcolor : p.color <;> simp [redLoop, redRound, hcolor]
  | p :: g :: up =>
    rw [repairRed_cons_cons]
    cases hcolor : p.color with
    | black =>
      have hdue : redLoop.due (p :: g :: up) x = false := by simp [redLoop, hcolor]
      have hfinish : redLoop.finish (p :: g :: up) x = .ok ((fill (p :: g :: up) x).paint .black) :=
        Shape.recolor_of_ne_nil .black (fill_cons_ne_nil p (g :: up) x)
      rw [if_pos rfl, hdue, if_neg (by simp), hfinish]
      rfl
    | red =>
      have hdue : redLoop.due (p :: g :: up) x = true := by simp [redLoop, hcolor]
      have hround : redLoop.round (p :: g :: up) x = redRound (p :: g :: up) x := rfl
      rw [if_neg (by simp), hdue, if_pos rfl, hround, redRound]
      by_cases huncle : g.sibling.isRed = true
      · rw [if_pos huncle, if_pos huncle]
        rfl
      rw [if_neg huncle, if_neg huncle]
      by_cases hside : p.side = g.side
      · rw [if_pos hside, if_pos hside, turnOver_resume]
      · rw [if_neg hside, if_neg hside]
        cases (p.close x).rotate g.side with
        | error fault => rfl
        | ok lower => rw [ok_bind, ok_bind, turnOver_resume]

theorem lackRound_of_red {f : Frame} {slot : Slot} {near far : Shape} (up : Path) (x : Shape)
    (hsibling : f.sibling = .branch f.side .red slot near far) :
    lackRound (f :: up) x =
      (Frame.settle { f with color := .red, sibling := near } x).map
        (raisedRound (⟨f.side, .black, slot, far⟩ :: up)) := by
  obtain ⟨side, color, parent, sibling⟩ := f
  obtain rfl : sibling = .branch side .red slot near far := hsibling
  cases side <;> rfl

theorem lackRound_of_black {f : Frame} (up : Path) (x : Shape) (hsibling : f.sibling.color = .black) :
    lackRound (f :: up) x = (f.settle x).map (settledRound up) := by
  obtain ⟨side, color, slot, sibling⟩ := f
  cases sibling with
  | nil => rfl
  | node c left s right =>
    obtain rfl : c = .black := hsibling
    rfl

theorem repairShort_follows : lackLoop.Follows repairShort := by
  intro p x
  cases p with
  | nil => rfl
  | cons f up =>
    cases hx : x.color with
    | red =>
      rw [repairShort_of_red _ hx]
      simp [lackLoop, Shape.isRed, hx]
    | black =>
      have hdue : lackLoop.due (f :: up) x = true := by simp [lackLoop, Shape.isRed, hx]
      have hround : lackLoop.round (f :: up) x = lackRound (f :: up) x := rfl
      rw [hdue, if_pos rfl, hround]
      cases hsibling : f.sibling.color with
      | red =>
        obtain ⟨slot, near, far, hbranch⟩ := Shape.exists_branch_of_color_red hsibling f.side
        rw [lackRound_of_red up x hbranch, repairShort_cons_of_red up hx hbranch]
        cases hout : Frame.settle { f with color := .red, sibling := near } x with
        | error fault => rfl
        | ok out =>
          cases out with
          | settled t rotations => rfl
          | short t =>
            have hred : t.color = .red := Frame.settle_bounded hout
            simp only [except_map, ok_bind, raisedRound, Progress.resume]
            rw [repairShort_of_red _ hred]
            rfl
      | black =>
        rw [lackRound_of_black up x hsibling, repairShort_cons_of_black up hx hsibling]
        cases f.settle x with
        | error fault => rfl
        | ok out => cases out <;> rfl

theorem turnOver_climbs {up : Path} {g : Frame} {lower : Shape} {turns : Nat} {out : Progress} (hturns : turns ≤ 1)
    (h : turnOver up g lower turns = .ok out) : out.Climbs 2 up := by
  obtain ⟨top, _, rfl⟩ := map_eq_ok.mp h
  exact Nat.succ_le_succ hturns

theorem redRound_climbs {p g : Frame} {up : Path} {x : Shape} {out : Progress}
    (h : redRound (p :: g :: up) x = .ok out) : out.Climbs 2 up := by
  rw [redRound] at h
  split at h
  · obtain rfl := Except.ok.inj h
    exact ⟨rfl, rfl⟩
  split at h
  · exact turnOver_climbs (Nat.zero_le 1) h
  · obtain ⟨lower, _, hlower⟩ := bind_eq_ok.mp h
    exact turnOver_climbs (Nat.le_refl 1) hlower

/-- Where a sibling was raised and the lack is still there it has not come
    nearer to the root, but then it lies under a node that has turned red. -/
theorem lackRound_climbs {f : Frame} {up : Path} {x : Shape} {out : Progress} (h : lackRound (f :: up) x = .ok out) :
    out.Climbs 3 up ∨
      ∃ upper y, out = .moved { rotations := 1, raised := true } (upper :: up) y ∧ y.color = .red := by
  cases hsibling : f.sibling.color with
  | red =>
    obtain ⟨slot, near, far, hbranch⟩ := Shape.exists_branch_of_color_red hsibling f.side
    rw [lackRound_of_red up x hbranch] at h
    obtain ⟨settlement, hsettle, rfl⟩ := map_eq_ok.mp h
    have hbounded := Frame.settle_bounded hsettle
    cases settlement with
    | settled t rotations => exact .inl (Nat.succ_le_succ hbounded)
    | short t => exact .inr ⟨_, t, rfl, hbounded⟩
  | black =>
    rw [lackRound_of_black up x hsibling] at h
    obtain ⟨settlement, hsettle, rfl⟩ := map_eq_ok.mp h
    have hbounded := Frame.settle_bounded hsettle
    cases settlement with
    | settled t rotations => exact .inl (Nat.le_succ_of_le hbounded)
    | short t => exact .inl ⟨rfl, rfl⟩

/-- What a repair comes to on the level below a path. -/
inductive Level (repair : Path → Shape → Except Fault Repaired) (limit : Nat) (up : Path) : Repaired → Prop where
  | idle (shape : Shape) : Level repair limit up { shape }
  | last {work : Round} (shape : Shape) (h : work.rotations ≤ limit) : Level repair limit up { shape, rounds := [work] }
  | passed {y : Shape} {above : Repaired} (h : repair up y = .ok above) : Level repair limit up (above.after {})

theorem repairRed_level {p g : Frame} {up : Path} {x : Shape} {r : Repaired} (h : repairRed (p :: g :: up) x = .ok r) :
    Level repairRed 2 up r := by
  cases repairRed_follows.goes h with
  | done => exact .idle _
  | mended _ hround => exact .last _ (redRound_climbs hround)
  | moved _ hround habove =>
    obtain ⟨rfl, rfl⟩ := redRound_climbs hround
    exact .passed habove

theorem repairShort_level {f : Frame} {up : Path} {x : Shape} {r : Repaired} (h : repairShort (f :: up) x = .ok r) :
    Level repairShort 3 up r := by
  cases repairShort_follows.goes h with
  | done => exact .idle _
  | mended _ hround =>
    obtain hclimbs | ⟨_, _, hmoved, _⟩ := lackRound_climbs hround
    · exact .last _ hclimbs
    · cases hmoved
  | moved _ hround habove =>
    obtain ⟨rfl, rfl⟩ | ⟨upper, _, hmoved, hred⟩ := lackRound_climbs hround
    · exact .passed habove
    · cases hmoved
      rw [repairShort_of_red _ hred] at habove
      obtain rfl := Except.ok.inj habove
      exact .last _ (by simp)

theorem repairRed_climbs : ∀ {p : Path} {x : Shape} {r : Repaired}, repairRed p x = .ok r →
    2 * r.rounds.length ≤ p.length ∧ r.Climbs 2
  | [], _, _, h => by
    obtain ⟨_, _, ⟨⟩⟩ := bind_eq_ok.mp h
    exact ⟨Nat.le_refl 0, Repaired.climbs_nil _ 2⟩
  | [p], x, r, h => by
    rw [repairRed_singleton] at h
    split at h
    · obtain rfl := Except.ok.inj h
      exact ⟨Nat.zero_le 1, Repaired.climbs_nil _ 2⟩
    · cases h
  | p :: g :: up, x, r, h => by
    cases repairRed_level h with
    | idle shape => exact ⟨Nat.zero_le _, Repaired.climbs_nil shape 2⟩
    | last shape hrotations => exact ⟨by simp, Repaired.climbs_singleton shape hrotations⟩
    | passed habove =>
      obtain ⟨hrounds, hclimbs⟩ := repairRed_climbs habove
      refine ⟨?_, hclimbs.after⟩
      simp only [Repaired.after, List.length_cons]
      omega

theorem repairShort_climbs {p : Path} {x : Shape} {r : Repaired} (h : repairShort p x = .ok r) :
    r.rounds.length ≤ p.length ∧ r.Climbs 3 := by
  induction p generalizing x r with
  | nil =>
    obtain rfl := Except.ok.inj h
    exact ⟨Nat.le_refl 0, Repaired.climbs_nil _ 3⟩
  | cons f up ih =>
    cases repairShort_level h with
    | idle shape => exact ⟨Nat.zero_le _, Repaired.climbs_nil shape 3⟩
    | last shape hrotations => exact ⟨by simp, Repaired.climbs_singleton shape hrotations⟩
    | passed habove =>
      obtain ⟨hrounds, hclimbs⟩ := ih habove
      exact ⟨Nat.succ_le_succ hrounds, hclimbs.after⟩

theorem closeGap_climbs {p : Path} {removed : Color} {x : Shape} {r : Repaired} (h : p.closeGap removed x = .ok r) :
    r.rounds.length ≤ p.length ∧ r.Climbs 3 := by
  cases removed with
  | red =>
    obtain rfl := Except.ok.inj h
    exact ⟨Nat.zero_le _, Repaired.climbs_nil _ 3⟩
  | black => exact repairShort_climbs h

end Path

end RedBlack
