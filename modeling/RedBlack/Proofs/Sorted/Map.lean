import RedBlack.Proofs.Tree.Replica
import RedBlack.Proofs.Tree.Safety
import RedBlack.Sorted.Map

namespace RedBlack

namespace SortedMap

open RedBlack.Action RedBlack.Tree

variable {κ ν ρ : Type} {m n : SortedMap κ ν} {entries before after : List (Slot × (κ × ν))}
  {o : Outside (κ × ν)}

/-- What binding a key comes to. Where the first entry not before the key does
    not come after it either, its value is replaced; otherwise the entry is
    inserted, unless the hinted search objects. -/
inductive Insertion (m : SortedMap κ ν) (entries : List (Slot × (κ × ν))) (o : Outside (κ × ν)) (k : κ) (v : ν) :
    Option ν → SortedMap κ ν → Prop where
  | replaced {before rest : List (Slot × (κ × ν))} {slot : Slot} {k' : κ} {old : ν} {n : SortedMap κ ν} :
    entries = before ++ (slot, (k', old)) :: rest →
    Points (Bound.lower.side m.tree.less k) Prod.fst before ((slot, (k', old)) :: rest) →
    m.tree.less k k' = false → n.tree.Continues m.tree →
    n.tree.Represents (before ++ (slot, (k', v)) :: rest) o → m.Insertion entries o k v (some old) n
  | bound {before after : List (Slot × (κ × ν))} {answer : Position × Bool} {n : SortedMap κ ν} :
    entries = before ++ after → Points (Bound.lower.side m.tree.less k) Prod.fst before after →
    (∀ b ∈ after.head?, m.tree.less k b.2.1 = true) →
    m.tree.UniqueInsertion entries o (k, v) (.ok answer) n.tree → m.Insertion entries o k v none n

/-- A binding that got no slot. The key was not bound, and nothing has
    changed. -/
structure Refused (m : SortedMap κ ν) (entries : List (Slot × (κ × ν))) (o : Outside (κ × ν)) (k : κ)
    (n : SortedMap κ ν) : Prop where
  full : ¬ n.tree.store.HasRoom
  continues : n.tree.Continues m.tree
  represents : n.tree.Represents entries o
  vacant : ∃ before after : List (Slot × (κ × ν)), entries = before ++ after ∧
    Points (Bound.lower.side m.tree.less k) Prod.fst before after ∧ ∀ b ∈ after.head?, m.tree.less k b.2.1 = true

theorem wp_onTree (op : Tree.Op (Prod.fst : κ × ν → κ) ρ) {done : ρ → SortedMap κ ν → Prop}
    {stopped : Fault → SortedMap κ ν → Prop} :
    (onTree op).wp done stopped m ↔
      op.wp (fun value t => done value { tree := t }) (fun fault t => stopped fault { tree := t }) m.tree :=
  wp_within ..

/-- The first entry not before the key is taken for its binding if the key does
    not come before it. -/
theorem answer_bound (t : Tree (Prod.fst : κ × ν → κ)) (k : κ) (entry : Option (κ × ν)) :
    (insert.bound k t entry).answer = .ok (entry.filter fun e => !t.less k e.1) := by
  cases entry with
  | none => rfl
  | some e => cases hless : t.less k e.1 <;> simp [insert.bound, hless, Option.filter]

theorem insert_spec (h : m.tree.Represents entries o) (k : κ) (v : ν) :
    (insert k v).wp (m.Insertion entries o k v)
      (fun fault n => fault = .allocationFailed ∧ m.Refused entries o k n) m := by
  obtain ⟨before, after, rfl, hlower, hpoints⟩ := h.lowerBound k
  rw [insert, wp_onTree, wp_bind, wp_ask_ok (s := m.tree) hlower, wp_bind, wp_look_ok (s := m.tree) h.get, wp_bind,
    wp_ask_ok (s := m.tree) (answer_bound m.tree k _)]
  have hinsert (hapart : ∀ b ∈ after.head?, m.tree.less k b.2.1 = true) :
      (do
        let _ ← demand (← insertUniqueHint (m.tree.position (after.head?.map Prod.fst)) (k, v))
        return none : Tree.Op (Prod.fst : κ × ν → κ) (Option ν)).wp
          (fun old t => m.Insertion (before ++ after) o k v old { tree := t })
          (fun fault t => fault = .allocationFailed ∧ m.Refused (before ++ after) o k { tree := t }) m.tree := by
    rw [wp_bind]
    refine (h.insertUniqueHint (k, v) h.liveOrEnd).mono ?_
    intro answer u hinsertion
    refine Represents.demand_insertion hinsertion ?_ ?_
    · rintro value rfl
      exact .bound rfl hpoints hapart hinsertion
    · intro hroom hu hrep
      exact ⟨rfl, hroom, hu, hrep, before, after, rfl, hpoints, hapart⟩
  cases after with
  | nil => exact hinsert (by simp)
  | cons b rest =>
    obtain ⟨slot, k', old⟩ := b
    cases hless : m.tree.less k k' with
    | true => simpa [Option.filter, hless] using hinsert (by simpa using hless)
    | false =>
      have hfound : ((List.head? ((slot, k', old) :: rest)).map Prod.snd).filter (fun e => !m.tree.less k e.1) =
          some (k', old) := by
        simp [Option.filter, hless]
      rw [hfound]
      simp only
      rw [wp_bind]
      refine (h.modify rfl rfl _).mono ?_
      rintro _ u ⟨hu, _, hrep⟩
      exact .replaced rfl hpoints hless hu hrep

theorem get_answer (h : m.tree.Represents entries o) (k : κ) :
    ∃ before after : List (Slot × (κ × ν)), entries = before ++ after ∧
      Points (Bound.lower.side m.tree.less k) Prod.fst before after ∧
      (m.get k).answer = .ok ((m.tree.hit k after).map fun e => e.2.2) := by
  obtain ⟨before, after, rfl, hfind, hpoints⟩ := h.find k
  refine ⟨before, after, rfl, hpoints, ?_⟩
  simp [get, hfind, h.get_hit, Function.comp_def]

theorem lowerBound_answer (h : m.tree.Represents entries o) (k : κ) :
    ∃ before after : List (Slot × (κ × ν)), entries = before ++ after ∧
      Points (Bound.lower.side m.tree.less k) Prod.fst before after ∧
      (m.lowerBound k).answer = .ok (after.head?.map Prod.snd) := by
  obtain ⟨before, after, rfl, hbound, hpoints⟩ := h.lowerBound k
  exact ⟨before, after, rfl, hpoints, by simp [lowerBound, hbound, h.get]⟩

theorem upperBound_answer (h : m.tree.Represents entries o) (k : κ) :
    ∃ before after : List (Slot × (κ × ν)), entries = before ++ after ∧
      Points (Bound.upper.side m.tree.less k) Prod.fst before after ∧
      (m.upperBound k).answer = .ok (after.head?.map Prod.snd) := by
  obtain ⟨before, after, rfl, hbound, hpoints⟩ := h.upperBound k
  exact ⟨before, after, rfl, hpoints, by simp [upperBound, hbound, h.get]⟩

theorem remove_spec (h : m.tree.Represents entries o) (k : κ) :
    (remove k).Yields m fun answer n => ∃ before after : List (Slot × (κ × ν)), entries = before ++ after ∧
      Points (Bound.lower.side m.tree.less k) Prod.fst before after ∧ n.tree.Continues m.tree ∧
      answer = (m.tree.hit k after).map (fun e => e.2.2) ∧
      n.tree.Represents (if (m.tree.hit k after).isSome then before ++ after.tail else entries) o := by
  obtain ⟨before, after, rfl, hfind, hpoints⟩ := h.find k
  rw [remove, Yields, wp_onTree, wp_bind, wp_ask_ok (s := m.tree) hfind]
  cases hhit : m.tree.hit k after with
  | none => exact ⟨before, after, rfl, hpoints, .refl _, by rw [hhit]; rfl, by rw [hhit]; exact h⟩
  | some e =>
    obtain ⟨rest, rfl, _⟩ := hit_eq_some_iff.mp hhit
    simp only [Option.map_some, Position.isEnd, Tree.position, Option.isNone_some, Bool.false_eq_true, if_false,
      wp_bind]
    refine (h.remove rfl rfl).mono ?_
    rintro _ u ⟨rfl, hu, hrep⟩
    exact ⟨before, e :: rest, rfl, hpoints, hu, by rw [hhit]; rfl, by rw [hhit]; exact hrep⟩

theorem modify_spec (h : m.tree.Represents entries o) (k : κ) (change : ν → ν) :
    (modify k change).Yields m fun _ n => n.tree.Continues m.tree ∧ ∃ left, n.tree.Represents left o ∧
      left.map (fun e => (e.1, e.2.1)) = entries.map fun e => (e.1, e.2.1) := by
  obtain ⟨before, after, rfl, hfind, _⟩ := h.find k
  rw [modify, Yields, wp_onTree, wp_bind, wp_ask_ok (s := m.tree) hfind, wp_bind,
    wp_look_ok (s := m.tree) (h.get_hit k), wp_bind]
  cases hhit : m.tree.hit k after with
  | none =>
    rw [wp_modify_end rfl rfl]
    exact ⟨.refl _, _, h, rfl⟩
  | some e =>
    obtain ⟨rest, rfl, _⟩ := hit_eq_some_iff.mp hhit
    refine (h.modify rfl rfl _).mono ?_
    rintro _ u ⟨hu, _, hrep⟩
    exact ⟨hu, _, hrep, by simp⟩

/-- A request to a map. -/
inductive Command (κ ν : Type) where
  | insert (k : κ) (v : ν)
  | tryInsert (k : κ) (v : ν)
  | extend (entries : List (κ × ν))
  | modify (k : κ) (change : ν → ν)
  | remove (k : κ)
  | popFirst
  | popLast
  | clear
  | get (k : κ)
  | contains (k : κ)
  | lowerBound (k : κ)
  | upperBound (k : κ)
  | first
  | last
  | compareKeys (a b : κ)
  | compareEntries (a b : κ × ν)
  | entries
  | walk (script : List Side)
  | keys (script : List Side)
  | values (script : List Side)

/-- What a map does on a request, the answer aside. -/
def Command.run : Command κ ν → Op κ ν Unit
  | insert k v => (fun _ => ()) <$> SortedMap.insert k v
  | tryInsert k v => (fun _ => ()) <$> SortedMap.tryInsert k v
  | extend entries => SortedMap.extend entries
  | modify k change => (fun _ => ()) <$> SortedMap.modify k change
  | remove k => (fun _ => ()) <$> SortedMap.remove k
  | popFirst => (fun _ => ()) <$> SortedMap.popFirst
  | popLast => (fun _ => ()) <$> SortedMap.popLast
  | clear => SortedMap.clear
  | get k => (fun _ => ()) <$> .ask fun m => m.get k
  | contains k => (fun _ => ()) <$> .ask fun m => m.contains k
  | lowerBound k => (fun _ => ()) <$> .ask fun m => m.lowerBound k
  | upperBound k => (fun _ => ()) <$> .ask fun m => m.upperBound k
  | first => (fun _ => ()) <$> .look fun m => m.first?
  | last => (fun _ => ()) <$> .look fun m => m.last?
  | compareKeys a b => (fun _ => ()) <$> .ask fun m => m.compareKeys a b
  | compareEntries a b => (fun _ => ()) <$> .ask fun m => m.compareEntries a b
  | .entries => (fun _ => ()) <$> .look fun m => m.entries
  | walk script => (fun _ => ()) <$> .look fun m => m.walk.follow script
  | keys script => (fun _ => ()) <$> .look fun m => m.keys.follow script
  | values script => (fun _ => ()) <$> .look fun m => m.values.follow script

/-- The maps that requests and copies lead to, from the one without entries. -/
inductive Reachable (less : κ → κ → Bool) : SortedMap κ ν → Prop where
  | empty : Reachable less (.empty less)
  | step {m : SortedMap κ ν} {c : Command κ ν} : Reachable less m → Reachable less (c.run.run m).state
  | clone {m n : SortedMap κ ν} : Reachable less m → m.clone = .ok n → Reachable less n

theorem keeps_onTree {op : Tree.Op (Prod.fst : κ × ν → κ) ρ} (h : Keeps (fun t => t) o op m.tree) :
    Keeps SortedMap.tree o (onTree op) m :=
  h.within fun _ _ => rfl

theorem keeps_insert (h : m.tree.Represents entries o) (k : κ) (v : ν) : Keeps SortedMap.tree o (insert k v) m := by
  refine wp_mono (insert_spec h k v) ?_ ?_
  · intro _ n hinsertion
    cases hinsertion with
    | replaced _ _ _ hn hrep => exact ⟨hn, _, hrep⟩
    | bound _ _ _ hinsertion => exact hinsertion.changedFrom.toKept
  · rintro fault n ⟨hfault, hrefused⟩
    exact ⟨hfault, hrefused.full, hrefused.continues, entries, hrefused.represents⟩

/-- Every request keeps a map, whatever its comparator is, and stops only for
    want of a slot. -/
theorem Command.keeps (h : m.tree.Represents entries o) (c : Command κ ν) : Keeps SortedMap.tree o c.run m := by
  cases c with
  | insert k v => exact (keeps_insert h k v).map _
  | tryInsert k v => exact (keeps_onTree (h.keeps_insertUnique (k, v))).map _
  | extend new =>
    apply h.keeps_forM
    exact fun entry n left hleft => (keeps_insert hleft entry.1 entry.2).map _
  | modify k change =>
    apply Keeps.map
    refine (modify_spec h k change).mono ?_
    rintro _ n ⟨hn, left, hrep, _⟩
    exact ⟨hn, left, hrep⟩
  | remove k =>
    apply Keeps.map
    refine (remove_spec h k).mono ?_
    rintro _ n ⟨_, _, _, _, hn, _, hrep⟩
    exact ⟨hn, _, hrep⟩
  | popFirst => exact (keeps_onTree h.keeps_popFirst).map _
  | popLast => exact (keeps_onTree h.keeps_popLast).map _
  | clear => exact keeps_onTree h.keeps_clear
  | get k =>
    obtain ⟨_, _, _, _, hanswer⟩ := get_answer h k
    exact (h.keeps_ask hanswer).map _
  | contains k =>
    obtain ⟨_, _, _, hanswer, _⟩ := h.contains k
    have hcontains : (m.contains k).answer = .ok _ := hanswer
    exact (h.keeps_ask hcontains).map _
  | lowerBound k =>
    obtain ⟨_, _, _, _, hanswer⟩ := lowerBound_answer h k
    exact (h.keeps_ask hanswer).map _
  | upperBound k =>
    obtain ⟨_, _, _, _, hanswer⟩ := upperBound_answer h k
    exact (h.keeps_ask hanswer).map _
  | first => exact (h.keeps_look h.first?).map _
  | last => exact (h.keeps_look h.last?).map _
  | compareKeys a b => exact (h.keeps_ask rfl).map _
  | compareEntries a b => exact (h.keeps_ask rfl).map _
  | entries => exact (h.keeps_look h.items).map _
  | walk script =>
    obtain ⟨result, hresult⟩ := h.walk.follow script
    exact (h.keeps_look hresult).map _
  | keys script =>
    obtain ⟨result, hresult⟩ := (h.walk.map Prod.fst).follow script
    exact (h.keeps_look hresult).map _
  | values script =>
    obtain ⟨result, hresult⟩ := (h.walk.map Prod.snd).follow script
    exact (h.keeps_look hresult).map _

theorem Reachable.represents {less : κ → κ → Bool} (h : m.Reachable less) :
    m.tree.less = less ∧ ∃ entries, m.tree.Represents entries .idle := by
  induction h with
  | empty => exact ⟨rfl, [], represents_empty Store.holds_empty⟩
  | @step m c _ ih =>
    obtain ⟨hless, entries, hrep⟩ := ih
    obtain ⟨hn, hleft⟩ := (c.keeps hrep).state
    exact ⟨hn.less.trans hless, hleft⟩
  | clone _ hclone ih =>
    obtain ⟨hless, entries, hrep⟩ := ih
    obtain ⟨copy, new, hrun, hcopy, hcopyLess, _⟩ := hrep.clone 0
    rw [SortedMap.clone, hrun] at hclone
    obtain rfl := Except.ok.inj hclone
    exact ⟨hcopyLess.trans hless, new, hcopy⟩

/-- What users of a map may rely on under any comparator: nothing stops, but a
    request for an entry that finds the arena full. -/
structure StopsOnlyFull (m : SortedMap κ ν) : Prop where
  request : ∀ (c : Command κ ν) fault, (c.run.run m).answer = .error fault →
    fault = .allocationFailed ∧ ¬ (c.run.run m).state.tree.store.base.HasRoom
  clone : ∃ n, m.clone = .ok n
  drain : ∀ script, ∃ items store, ((Drain.follow script).run m.drain).answer = .ok items ∧
    ((Drain.follow script).run m.drain).state.tree.dispose = .ok store
  dispose : ∃ store, m.tree.dispose = .ok store
  form : ∀ key value tall, ∃ text, m.form key value tall = .ok text
  sameItems : ∀ [DecidableEq κ] [DecidableEq ν] (n : SortedMap κ ν) (less : κ → κ → Bool), n.Reachable less →
    ∃ answer, m.sameItems n = .ok answer

theorem Reachable.stopsOnlyFull {less : κ → κ → Bool} (h : m.Reachable less) : m.StopsOnlyFull := by
  obtain ⟨_, entries, hrep⟩ := h.represents
  constructor
  · exact fun c fault hfault => (c.keeps hrep).full rfl hfault
  · obtain ⟨copy, _, hrun, _⟩ := hrep.clone 0
    exact ⟨{ tree := copy }, by rw [SortedMap.clone, hrun]; rfl⟩
  · intro script
    obtain ⟨items, store, hanswer, hdispose, _⟩ := hrep.drain script
    exact ⟨items, store, hanswer, hdispose⟩
  · obtain ⟨store, hdispose, _⟩ := hrep.dispose
    exact ⟨store, hdispose⟩
  · exact fun key value tall => hrep.form _ _ tall
  · intro _ _ n less' hn
    obtain ⟨_, other, hother⟩ := hn.represents
    exact hrep.sameItems hother

end SortedMap

end RedBlack
