import RedBlack.Proofs.Tree.Commands

namespace RedBlack

namespace Tree

open RedBlack.Action

variable {α κ ε : Type} {key : α → κ} {t u : Tree key}

namespace Reply

/-- Why a request failed. -/
def failure? : Reply α ε → Option (Failure ε)
  | unique (.error error) | equal (.error error) => some (.alloc error)
  | uniqueWith { result := .error failure, .. } | equalWith { result := .error failure, .. } => some failure
  | _ => none

/-- How often the constructor was called. -/
def calls : Reply α ε → Nat
  | uniqueWith built => built.calls
  | equalWith built => built.calls
  | _ => 0

end Reply

/-- The constructor of a request that builds its item. -/
def Command.build? : Command α κ ε → Option (Unit → Except ε α)
  | insertUniqueWith build | insertEqualWith build => some build
  | insertUniqueHintWith _ build | insertEqualHintWith _ build => some build
  | _ => none

/-- What a failed insertion did: it asked for a slot and got none, or it got
    one, could not build the item for it and gave it back unused. -/
inductive Failed (t : Tree key) (build? : Option (Unit → Except ε α)) : Failure ε → Nat → Tree key → Prop where
  | refused {error : AllocError} {store : Store α} : t.store.allocate = .ok (.error error, store) →
    t.Failed build? (.alloc error) 0 { t with store }
  | unbuilt {build : Unit → Except ε α} {error : ε} {slot : Slot} {reserved store : Store α} {content : Option α} :
    build? = some build → build () = .error error → t.store.allocate = .ok (.ok slot, reserved) →
    reserved.deallocate slot = .ok (content, store) → t.Failed build? (.construct error) 1 { t with store }

theorem wp_allocate {done : Except AllocError Slot → Tree key → Prop}
    (h : ∀ answer store, t.store.allocate = .ok (answer, store) → done answer { t with store }) :
    (allocate : Op key _).wp done (fun _ _ => True) t := by
  rw [allocate, wp_step]
  cases hrun : t.store.allocate with
  | error fault => trivial
  | ok result => exact h _ _ hrun

/-- If the reply is a failure, asking for a slot and giving it back is all that
    was done. -/
def FailedOnly (t : Tree key) (build? : Option (Unit → Except ε α)) (reply : Reply α ε) (u : Tree key) : Prop :=
  ∀ failure, reply.failure? = some failure → t.Failed build? failure reply.calls u

theorem FailedOnly.of_none {build? : Option (Unit → Except ε α)} {reply : Reply α ε}
    (h : reply.failure? = none) : t.FailedOnly build? reply u := by
  intro failure hfailure
  rw [h] at hfailure
  cases hfailure

theorem insertAt_failedOnly (item : α) (place : Place) :
    (insertAt item place : Op key _).wp (fun x u => t.FailedOnly none (.equal x : Reply α ε) u) (fun _ _ => True)
      t := by
  rw [insertAt, wp_bind]
  refine wp_allocate fun answer store hrun => ?_
  cases answer with
  | ok slot => exact wp_bind_any fun _ _ => wp_bind_any fun _ _ => .of_none rfl
  | error error =>
    rintro _ ⟨⟩
    exact .refused hrun

theorem insertUniqueBy_failedOnly (search : Tree key → κ → Query κ Vacancy) (item : α) :
    (insertUniqueBy search item).wp (fun x u => t.FailedOnly none (.unique x : Reply α ε) u) (fun _ _ => True) t := by
  rw [insertUniqueBy, wp_bind]
  refine wp_ask_any fun vacancy => ?_
  cases vacancy with
  | occupied slot => exact wp_bind_any fun _ _ => .of_none rfl
  | vacant place =>
    rw [wp_bind]
    refine wp_mono (insertAt_failedOnly (ε := ε) item place) (fun x u hx => ?_) fun _ _ _ => trivial
    cases x with
    | ok p => exact .of_none rfl
    | error error => exact hx

theorem insertEqualBy_failedOnly (search : Tree key → κ → Query κ Place) (item : α) :
    (insertEqualBy search item).wp (fun x u => t.FailedOnly none (.equal x : Reply α ε) u) (fun _ _ => True) t := by
  rw [insertEqualBy, wp_bind]
  exact wp_ask_any fun place => insertAt_failedOnly item place

theorem buildNode_failed (build : Unit → Except ε α) :
    (buildNode build : Op key _).wp
      (fun b u => ∀ failure, b.result = .error failure → t.Failed (some build) failure b.calls u) (fun _ _ => True)
      t := by
  rw [buildNode, wp_bind]
  refine wp_allocate fun answer store hrun => ?_
  cases answer with
  | ok slot =>
    cases hbuild : build () with
    | ok item =>
      simp only [Built.call_of_ok hbuild]
      refine wp_bind_any fun _ _ => ?_
      rintro _ ⟨⟩
    | error error =>
      simp only [Built.call_of_error hbuild, wp_bind]
      rw [giveBack, wp_step]
      cases hback : store.deallocate slot with
      | error fault => trivial
      | ok result =>
        rintro _ ⟨⟩
        exact .unbuilt rfl hbuild hrun hback
  | error error =>
    rintro _ ⟨⟩
    exact .refused hrun

theorem insertUniqueWithBy_failedOnly (search : Tree key → κ → Query κ Vacancy) (build : Unit → Except ε α) :
    (insertUniqueWithBy search build).wp (fun x u => t.FailedOnly (some build) (.uniqueWith x) u)
      (fun _ _ => True) t := by
  rw [insertUniqueWithBy, wp_bind]
  refine wp_mono (buildNode_failed build) (fun b u hb => ?_) fun _ _ _ => trivial
  obtain ⟨calls, result⟩ := b
  cases result with
  | error failure =>
    rintro _ ⟨⟩
    exact hb failure rfl
  | ok node =>
    refine wp_bind_any fun vacancy _ => ?_
    cases vacancy with
    | occupied slot => exact wp_bind_any fun _ _ => wp_bind_any fun _ _ => .of_none rfl
    | vacant place => exact wp_bind_any fun _ _ => .of_none rfl

theorem insertEqualWithBy_failedOnly (search : Tree key → κ → Query κ Place) (build : Unit → Except ε α) :
    (insertEqualWithBy search build).wp (fun x u => t.FailedOnly (some build) (.equalWith x) u)
      (fun _ _ => True) t := by
  rw [insertEqualWithBy, wp_bind]
  refine wp_mono (buildNode_failed build) (fun b u hb => ?_) fun _ _ _ => trivial
  obtain ⟨calls, result⟩ := b
  cases result with
  | error failure =>
    rintro _ ⟨⟩
    exact hb failure rfl
  | ok node => exact wp_bind_any fun _ _ => wp_bind_any fun _ _ => .of_none rfl

/-- A request that failed asked for a slot and gave it back, and did nothing
    else. -/
theorem Command.failedOnly (c : Command α κ ε) (t : Tree key) :
    (c.run : Op key _).wp (fun reply u => t.FailedOnly c.build? reply u) (fun _ _ => True) t := by
  cases c with
  | insertUnique item => exact (wp_map _ _).mpr (insertUniqueBy_failedOnly _ item)
  | insertEqual item => exact (wp_map _ _).mpr (insertEqualBy_failedOnly _ item)
  | insertUniqueHint hint item =>
    exact (wp_map _ _).mpr ((wp_bind _ _).mpr (wp_look_any fun _ => insertUniqueBy_failedOnly _ item))
  | insertEqualHint hint item =>
    exact (wp_map _ _).mpr ((wp_bind _ _).mpr (wp_look_any fun _ => insertEqualBy_failedOnly _ item))
  | insertUniqueWith build => exact (wp_map _ _).mpr (insertUniqueWithBy_failedOnly _ build)
  | insertEqualWith build => exact (wp_map _ _).mpr (insertEqualWithBy_failedOnly _ build)
  | insertUniqueHintWith hint build =>
    exact (wp_map _ _).mpr ((wp_bind _ _).mpr (wp_look_any fun _ => insertUniqueWithBy_failedOnly _ build))
  | insertEqualHintWith hint build =>
    exact (wp_map _ _).mpr ((wp_bind _ _).mpr (wp_look_any fun _ => insertEqualWithBy_failedOnly _ build))
  | _ => exact wp_bind_any fun _ _ => .of_none rfl

end Tree

end RedBlack
