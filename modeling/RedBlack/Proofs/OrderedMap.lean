import Mathlib.Data.List.Infix
import RedBlack.Proofs.AssocMap
import RedBlack.Proofs.Sorted.Map

namespace RedBlack

open RedBlack.Action RedBlack.Tree AssocMap

namespace OrderedMap

/-- A call to an ordered map. -/
inductive Call (κ ν : Type) where
  /-- A new map takes the place of the one there is. -/
  | fresh
  | insert (k : κ) (v : ν)
  | remove (k : κ)
  | get (k : κ)
  | lowerBound (k : κ)
  | size
  | isEmpty

/-- The answer to a call. -/
inductive Reply (κ ν : Type) where
  | fresh
  | value (v : Option ν)
  | entry (e : Option (κ × ν))
  | size (n : Nat)
  | isEmpty (b : Bool)
  deriving DecidableEq

variable {m κ ν : Type} [OrderedMap m κ ν]

/-- What a map does on a call. -/
def Call.run : Call κ ν → Action m κ (Reply κ ν)
  | fresh => .step fun _ => .ok (.fresh, OrderedMap.empty)
  | insert k v => .value <$> OrderedMap.insert k v
  | remove k => .value <$> OrderedMap.remove k
  | get k => .value <$> .ask fun a => OrderedMap.get k a
  | lowerBound k => .entry <$> .ask fun a => OrderedMap.lowerBound k a
  | size => .size <$> .look fun a => .ok (OrderedMap.size a)
  | isEmpty => .isEmpty <$> .look fun a => .ok (OrderedMap.isEmpty a)

/-- Calls one after the other. -/
def runAll : List (Call κ ν) → Action m κ (List (Reply κ ν))
  | [] => return []
  | c :: rest => do
    let reply ← c.run
    List.cons reply <$> runAll rest

variable (m) in
/-- The answers to calls to a new map. -/
def replies (calls : List (Call κ ν)) : Except Fault (List (Reply κ ν)) :=
  ((runAll calls).run (OrderedMap.empty : m)).answer

variable (m) in
/-- The map that calls to a new one leave. -/
def leftBy (calls : List (Call κ ν)) : m :=
  ((runAll calls).run (OrderedMap.empty : m)).state

/-- After the first call, the other ones go on with the map it left. -/
theorem run_cons {a : m} {c : Call κ ν} {reply : Reply κ ν} (h : (c.run.run a).answer = .ok reply)
    (rest : List (Call κ ν)) :
    ((runAll (c :: rest)).run a).state = ((runAll rest).run (c.run.run a).state).state ∧
      ((runAll (c :: rest)).run a).answer =
        ((runAll rest).run (c.run.run a).state).answer.map (List.cons reply) := by
  obtain ⟨hstate, hanswer⟩ := run_bind_ok h fun reply => List.cons reply <$> runAll rest
  obtain ⟨hmap, hmapped⟩ := run_map (s := (c.run.run a).state) (runAll rest) (List.cons reply)
  exact ⟨hstate.trans hmap, hanswer.trans hmapped⟩

theorem run_list {κ ν : Type} [Ord κ] (a : AssocMap κ ν) (c : Call κ ν) :
    ∃ reply, (c.run.run a).answer = .ok reply := by
  cases c <;> exact ⟨_, rfl⟩

end OrderedMap

namespace SortedMap

variable {κ ν : Type} [Ord κ] {m n : SortedMap κ ν} {a : AssocMap κ ν}
  {entries before after : List (Slot × (κ × ν))} {k : κ}

theorem natural_eq_true_iff {k k' : κ} : natural k k' = true ↔ compare k k' = .lt := by
  rw [natural, Ordering.isLT_iff_eq_lt]

theorem natural_eq_false_iff {k k' : κ} : natural k k' = false ↔ compare k k' ≠ .lt := by
  rw [← Bool.not_eq_true, natural_eq_true_iff]

/-- A tree under the natural order that has the entries of a list of ascending
    keys. Over keys with a lawful order, equal calls keep the one a mirror of
    the other. -/
structure Mirrors (m : SortedMap κ ν) (a : AssocMap κ ν) : Prop where
  less : m.tree.less = natural
  ascending : Ascending a.entries
  represents : ∃ entries, m.tree.Represents entries .idle ∧ a = ⟨entries.map Prod.snd⟩

theorem mirrors_empty : (SortedMap.empty natural : SortedMap κ ν).Mirrors ⟨[]⟩ where
  less := rfl
  ascending := List.Pairwise.nil
  represents := ⟨[], represents_empty Store.holds_empty, rfl⟩

theorem Mirrors.entries_eq (h : Mirrors m a) : m.entries = .ok a.entries := by
  obtain ⟨entries, hrep, rfl⟩ := h.represents
  exact hrep.items

theorem Mirrors.size (h : Mirrors m a) : m.size = a.entries.length := by
  obtain ⟨entries, hrep, rfl⟩ := h.represents
  rw [SortedMap.size, hrep.size, List.length_map]

variable [Std.TransOrd κ]

theorem compare_eq_of_natural {k k' : κ} (hk : natural k k' = false) (hk' : natural k' k = false) :
    compare k k' = .eq := by
  rw [natural_eq_false_iff] at hk hk'
  cases hcmp : compare k k' with
  | lt => exact absurd hcmp hk
  | eq => rfl
  | gt => exact absurd (Std.OrientedCmp.lt_of_gt hcmp) hk'

/-- A key strictly between two neighbours lies apart from all entries of the
    list. -/
theorem Mirrors.apart (h : Mirrors m a) (hentries : a = ⟨(before ++ after).map Prod.snd⟩)
    (hbefore : ∀ e ∈ before.getLast?, m.tree.less e.2.1 k = true)
    (hafter : ∀ e ∈ after.head?, m.tree.less k e.2.1 = true) :
    Apart k (before.map Prod.snd) (after.map Prod.snd) := by
  subst hentries
  have hascending := h.ascending
  rw [List.map_append] at hascending
  apply hascending.apart
  · intro x hx
    rw [List.getLast?_map] at hx
    obtain ⟨e, he, rfl⟩ := Option.map_eq_some_iff.mp hx
    have hlt := hbefore e he
    rw [h.less, natural_eq_true_iff] at hlt
    exact Std.OrientedCmp.gt_of_lt hlt
  · intro x hx
    rw [List.head?_map] at hx
    obtain ⟨e, he, rfl⟩ := Option.map_eq_some_iff.mp hx
    have hlt := hafter e he
    rwa [h.less, natural_eq_true_iff] at hlt

/-- How the list answers for a key, given the place that the tree finds for it:
    the entry right behind that place has an equal key, or no entry has one. -/
inductive LooksUp (a : AssocMap κ ν) (k : κ) (before after : List (Slot × (κ × ν))) :
    Option (Slot × (κ × ν)) → Prop where
  | bound {slot : Slot} {k' : κ} {v : ν} {rest : List (Slot × (κ × ν))} : after = (slot, (k', v)) :: rest →
    a.get? k = some v → a.lowerBound? k = some (k', v) → a.erase k = ⟨(before ++ rest).map Prod.snd⟩ →
    LooksUp a k before after (some (slot, (k', v)))
  | vacant : a.get? k = none → a.lowerBound? k = after.head?.map Prod.snd → a.erase k = a →
    LooksUp a k before after none

theorem Mirrors.look_up (h : Mirrors m a) (hentries : a = ⟨(before ++ after).map Prod.snd⟩)
    (hpoints : Points (Bound.lower.side m.tree.less k) Prod.fst before after) :
    LooksUp a k before after (m.tree.hit k after) := by
  cases hhit : m.tree.hit k after with
  | none =>
    have hafter (e) (he : e ∈ after.head?) : m.tree.less k e.2.1 = true := by
      by_contra hnot
      have hfound : m.tree.hit k after = some e := by
        rw [Tree.hit, Option.mem_def.mp he]
        simp [Option.filter, hnot]
      rw [hhit] at hfound
      cases hfound
    have hapart := h.apart hentries hpoints.less_of_getLast? hafter
    subst hentries
    apply LooksUp.vacant
    · simpa using hapart.get?_vacant
    · simpa using hapart.lowerBound?_vacant
    · simpa using hapart.erase_vacant
  | some e =>
    obtain ⟨rest, rfl, hnot⟩ := hit_eq_some_iff.mp hhit
    obtain ⟨slot, k', v⟩ := e
    have hside : m.tree.less k' k = false := by
      simpa [Bound.side] using hpoints.after (slot, (k', v)) (by simp)
    rw [h.less] at hnot hside
    have heq := compare_eq_of_natural hnot hside
    subst hentries
    have hascending := h.ascending
    rw [List.map_append, List.map_cons] at hascending
    have hapart := hascending.apart_of_eq heq
    refine .bound rfl ?_ ?_ ?_
    · simpa using hapart.get?_bound heq
    · simpa using hapart.lowerBound?_bound heq
    · simpa using hapart.erase_bound heq

/-- A key between two neighbours is new to the list, and is bound there. -/
theorem Mirrors.bind_between (h : Mirrors m a) (v : ν) (hentries : a = ⟨(before ++ after).map Prod.snd⟩)
    (hbefore : ∀ e ∈ before.getLast?, m.tree.less e.2.1 k = true)
    (hafter : ∀ e ∈ after.head?, m.tree.less k e.2.1 = true) :
    a.get? k = none ∧ a.insert k v = ⟨before.map Prod.snd ++ (k, v) :: after.map Prod.snd⟩ ∧
      Ascending (before.map Prod.snd ++ (k, v) :: after.map Prod.snd) := by
  have hapart := h.apart hentries hbefore hafter
  subst hentries
  have hascending := h.ascending
  rw [List.map_append] at hascending ⊢
  exact ⟨hapart.get?_vacant, hapart.insert_vacant v, hascending.insert_vacant hapart v⟩

/-- An entry with an equal key keeps that key and gets the new value. -/
theorem Mirrors.bind_over {slot : Slot} {k' : κ} {old : ν} (h : Mirrors m a) (v : ν)
    (hentries : a = ⟨(before ++ (slot, (k', old)) :: after).map Prod.snd⟩) (heq : compare k k' = .eq) :
    a.get? k = some old ∧ a.insert k v = ⟨before.map Prod.snd ++ (k', v) :: after.map Prod.snd⟩ ∧
      Ascending (before.map Prod.snd ++ (k', v) :: after.map Prod.snd) := by
  subst hentries
  have hascending := h.ascending
  rw [List.map_append, List.map_cons] at hascending ⊢
  have hapart := hascending.apart_of_eq heq
  exact ⟨hapart.get?_bound heq, hapart.insert_bound heq v, hascending.replace v⟩

/-- What binding a key comes to in the tree, it comes to in the list. -/
theorem Mirrors.of_insertion {v : ν} {old : Option ν} (h : Mirrors m a) (hentries : a = ⟨entries.map Prod.snd⟩)
    (hinsertion : m.Insertion entries .idle k v old n) : old = a.get? k ∧ Mirrors n (a.insert k v) := by
  cases hinsertion with
  | @replaced before rest slot k' old n hsplit hpoints hnot hn hleft =>
    subst hsplit
    have hside : m.tree.less k' k = false := by
      simpa [Bound.side] using hpoints.after (slot, (k', old)) (by simp)
    rw [h.less] at hnot hside
    obtain ⟨hget, hinsert, hascending⟩ := h.bind_over v hentries (compare_eq_of_natural hnot hside)
    rw [hget, hinsert]
    exact ⟨rfl, hn.less.trans h.less, hascending, _, hleft, by simp⟩
  | @bound before after answer n hsplit hpoints hafter hinsertion =>
    generalize hanswer : (Except.ok answer : Except AllocError (Position × Bool)) = result at hinsertion
    cases hinsertion with
    | vacant hinserted =>
      cases hinserted with
      | inserted hplace hbelow habove hn hleft =>
        obtain ⟨hget, hinsert, hascending⟩ := h.bind_between v (hplace ▸ hentries) hbelow habove
        rw [hget, hinsert]
        exact ⟨rfl, hn.less.trans h.less, hascending, _, hleft, by simp⟩
      | refused => cases hanswer
    | @occupied slot other u hmem hnot hnot' hn hleft =>
      subst hsplit
      have hapart := h.apart hentries hpoints.less_of_getLast? hafter
      rw [h.less] at hnot hnot'
      have heq := compare_eq_of_natural hnot' hnot
      obtain hmem | hmem := List.mem_append.mp hmem
      · have hgt := hapart.before other (List.mem_map_of_mem hmem)
        rw [heq] at hgt
        cases hgt
      · have hlt := hapart.after other (List.mem_map_of_mem hmem)
        rw [heq] at hlt
        cases hlt

/-- The arena is not full while the list with one more entry does not outgrow
    the slots. -/
theorem Mirrors.not_refused {v : ν} (h : Mirrors m a) (hentries : a = ⟨entries.map Prod.snd⟩)
    (hroom : (a.insert k v).entries.length ≤ Handle.maxSlots) : ¬ m.Refused entries .idle k n := by
  intro hrefused
  obtain ⟨before, after, rfl, hpoints, hafter⟩ := hrefused.vacant
  obtain ⟨_, hinsert, _⟩ := h.bind_between v hentries hpoints.less_of_getLast? hafter
  rw [hinsert] at hroom
  have hlength : (before ++ after).length < Handle.maxSlots := by
    simp only [List.length_append, List.length_cons, List.length_map] at hroom ⊢
    omega
  exact hrefused.full (hrefused.represents.store.hasRoom rfl (fun _ => rfl) hlength)

theorem Mirrors.insert (h : Mirrors m a) (k : κ) (v : ν) (hroom : (a.insert k v).entries.length ≤ Handle.maxSlots) :
    (SortedMap.insert k v).Yields m fun old n => old = a.get? k ∧ Mirrors n (a.insert k v) := by
  obtain ⟨entries, hrep, hentries⟩ := h.represents
  refine wp_mono (insert_spec hrep k v) ?_ ?_
  · exact fun old n hinsertion => h.of_insertion hentries hinsertion
  · exact fun fault n hstopped => h.not_refused hentries hroom hstopped.2

theorem Mirrors.remove (h : Mirrors m a) (k : κ) :
    (SortedMap.remove k).Yields m fun old n => old = a.get? k ∧ Mirrors n (a.erase k) := by
  obtain ⟨entries, hrep, hentries⟩ := h.represents
  refine (remove_spec hrep k).mono ?_
  rintro old n ⟨before, after, rfl, hpoints, hn, rfl, hleft⟩
  have hlooks := h.look_up hentries hpoints
  cases hhit : m.tree.hit k after with
  | none =>
    rw [hhit] at hlooks hleft
    cases hlooks with
    | vacant hget _ herase =>
      rw [hget, herase]
      exact ⟨rfl, hn.less.trans h.less, h.ascending, _, hleft, hentries⟩
  | some e =>
    rw [hhit] at hlooks hleft
    cases hlooks with
    | bound hcons hget _ herase =>
      subst hcons hentries
      rw [hget, herase]
      refine ⟨rfl, hn.less.trans h.less, ?_, _, hleft, rfl⟩
      have hascending := h.ascending
      rw [List.map_append, List.map_cons] at hascending
      simpa using hascending.erase

theorem Mirrors.get_answer (h : Mirrors m a) (k : κ) : (m.get k).answer = .ok (a.get? k) := by
  obtain ⟨entries, hrep, hentries⟩ := h.represents
  obtain ⟨before, after, rfl, hpoints, hanswer⟩ := SortedMap.get_answer hrep k
  have hlooks := h.look_up hentries hpoints
  cases hhit : m.tree.hit k after with
  | none =>
    rw [hhit] at hlooks hanswer
    cases hlooks with
    | vacant hget _ _ => rw [hanswer, hget, Option.map_none]
  | some e =>
    rw [hhit] at hlooks hanswer
    cases hlooks with
    | bound _ hget _ _ => rw [hanswer, hget, Option.map_some]

theorem Mirrors.lowerBound_answer (h : Mirrors m a) (k : κ) : (m.lowerBound k).answer = .ok (a.lowerBound? k) := by
  obtain ⟨entries, hrep, hentries⟩ := h.represents
  obtain ⟨before, after, rfl, hpoints, hanswer⟩ := SortedMap.lowerBound_answer hrep k
  have hlooks := h.look_up hentries hpoints
  cases hhit : m.tree.hit k after with
  | none =>
    rw [hhit] at hlooks
    cases hlooks with
    | vacant _ hbound _ => rw [hanswer, hbound]
  | some e =>
    rw [hhit] at hlooks
    cases hlooks with
    | bound hcons _ hbound _ => rw [hanswer, hbound, hcons, List.head?_cons, Option.map_some]

open OrderedMap

/-- Every call gets the same answer from both maps, and leaves the one a mirror
    of the other, as long as the entries left do not outnumber the slots. -/
theorem Mirrors.call (h : Mirrors m a) (c : Call κ ν)
    (hroom : (c.run.run a).state.entries.length ≤ Handle.maxSlots) :
    (c.run : Action (SortedMap κ ν) κ (OrderedMap.Reply κ ν)).Yields m fun reply n =>
      (c.run.run a).answer = .ok reply ∧ Mirrors n (c.run.run a).state := by
  cases c with
  | fresh =>
    rw [Call.run, Yields, wp_step_ok rfl]
    exact ⟨rfl, mirrors_empty⟩
  | insert k v =>
    rw [Call.run, Yields, wp_map]
    refine (h.insert k v hroom).mono ?_
    rintro _ n ⟨rfl, hn⟩
    exact ⟨rfl, hn⟩
  | remove k =>
    rw [Call.run, Yields, wp_map]
    refine (h.remove k).mono ?_
    rintro _ n ⟨rfl, hn⟩
    exact ⟨rfl, hn⟩
  | get k =>
    have hanswer : (OrderedMap.get k m).answer = .ok (a.get? k) := h.get_answer k
    rw [Call.run, Yields, wp_map, wp_ask_ok (s := m) hanswer]
    exact ⟨rfl, h⟩
  | lowerBound k =>
    have hanswer : (OrderedMap.lowerBound k m).answer = .ok (a.lowerBound? k) := h.lowerBound_answer k
    rw [Call.run, Yields, wp_map, wp_ask_ok (s := m) hanswer]
    exact ⟨rfl, h⟩
  | size =>
    have hsize : OrderedMap.size m = OrderedMap.size a := h.size
    rw [Call.run, Yields, wp_map, wp_view, hsize]
    exact ⟨rfl, h⟩
  | isEmpty =>
    have hempty : OrderedMap.isEmpty m = OrderedMap.isEmpty a := congrArg (fun n => decide (n = 0)) h.size
    rw [Call.run, Yields, wp_map, wp_view, hempty]
    exact ⟨rfl, h⟩

/-- Mirrors stay mirrors over any calls, while the list does not outgrow the
    slots. -/
theorem Mirrors.calls (h : Mirrors m a) (calls : List (Call κ ν))
    (hroom : ∀ pre, pre <+: calls → ((runAll pre).run a).state.entries.length ≤ Handle.maxSlots) :
    ∃ replies, ((runAll calls).run m).answer = .ok replies ∧ ((runAll calls).run a).answer = .ok replies ∧
      Mirrors ((runAll calls).run m).state ((runAll calls).run a).state := by
  induction calls generalizing m a with
  | nil => exact ⟨[], rfl, rfl, h⟩
  | cons c rest ih =>
    obtain ⟨first, hfirst⟩ := run_list a c
    have hlength := hroom [c] (List.prefix_append [c] rest)
    rw [(run_cons hfirst []).1] at hlength
    obtain ⟨reply, hreply, hlist, hmirrors⟩ := (h.call c hlength).answer
    have hrest : ∀ pre, pre <+: rest →
        ((runAll pre).run (c.run.run a).state).state.entries.length ≤ Handle.maxSlots := by
      intro pre hpre
      have hlength := hroom (c :: pre) (List.prefix_cons_inj c |>.mpr hpre)
      rwa [(run_cons hlist pre).1] at hlength
    obtain ⟨replies, hreplies, hlists, hlast⟩ := ih hmirrors hrest
    obtain ⟨hstate, hanswer⟩ := run_cons hreply rest
    obtain ⟨hstate', hanswer'⟩ := run_cons hlist rest
    refine ⟨reply :: replies, ?_, ?_, ?_⟩
    · rw [hanswer, hreplies, except_map]
    · rw [hanswer', hlists, except_map]
    · rw [hstate, hstate']
      exact hlast

end SortedMap

namespace OrderedMap

variable {κ ν : Type} [Ord κ] [Std.TransOrd κ]

/-- Over keys with a lawful order, the tree and the list answer alike at every
    step of every run that does not need more entries at once than there are
    slots, and the tree has the entries of the list, in the order of their
    keys. -/
theorem sortedMap_agrees (calls : List (Call κ ν))
    (hroom : ∀ pre, pre <+: calls → (leftBy (AssocMap κ ν) pre).entries.length ≤ Handle.maxSlots) :
    ∀ pre, pre <+: calls → ∃ answers, replies (SortedMap κ ν) pre = .ok answers ∧
      replies (AssocMap κ ν) pre = .ok answers ∧
      (leftBy (SortedMap κ ν) pre).entries = .ok (leftBy (AssocMap κ ν) pre).entries ∧
      Ascending (leftBy (AssocMap κ ν) pre).entries := by
  intro pre hpre
  have hstart : (OrderedMap.empty : SortedMap κ ν).Mirrors (OrderedMap.empty : AssocMap κ ν) :=
    SortedMap.mirrors_empty
  obtain ⟨answers, htree, hlist, hmirrors⟩ := hstart.calls pre fun p hp => hroom p (hp.trans hpre)
  exact ⟨answers, htree, hlist, hmirrors.entries_eq, hmirrors.ascending⟩

/-- A key is bound twice, another one once, and the first one is taken out. -/
theorem sortedMap_agrees_rebound :
    let calls : List (Call Nat Nat) := [.insert 2 20, .insert 1 10, .insert 2 21, .lowerBound 2, .remove 2, .size]
    replies (SortedMap Nat Nat) calls = .ok [.value none, .value none, .value (some 20), .entry (some (2, 21)),
      .value (some 21), .size 1] ∧ (leftBy (SortedMap Nat Nat) calls).entries = .ok [(1, 10)] := by
  intro calls
  have hroom : ∀ pre ∈ calls.inits, (leftBy (AssocMap Nat Nat) pre).entries.length ≤ Handle.maxSlots := by
    decide +kernel
  obtain ⟨answers, htree, hlist, hentries, _⟩ :=
    sortedMap_agrees calls (fun pre hpre => hroom pre ((List.mem_inits _ _).mpr hpre)) calls List.prefix_rfl
  rw [htree, hentries, ← hlist]
  exact ⟨rfl, rfl⟩

end OrderedMap

end RedBlack
