import FairShare.Proofs.Ledger
import FairShare.Proofs.Preemption
import FairShare.Session.Run

/-!
Taking back the container that is to be given up.  No two containers of a leaf have the same number,
since each has an attempt that is in the leaf once and a place in the requests of that attempt.  So
whatever a queue names to be given up runs in one of its leaves, and releasing it there takes away
that container and nothing else.
-/

namespace FairShare

/-- The numbers of the containers of an application ascend, so only one of them is taken out. -/
theorem App.Follows.filter_running {a : App} {asked : List Resource} {c : Container}
    {front back : List Container} (h : a.Follows asked) (runs : a.running = front ++ c :: back) :
    a.running.filter (fun d => d.id ≠ c.id) = front ++ back := by
  have inOrder := h.inOrder
  rw [runs, List.pairwise_append, List.pairwise_cons] at inOrder
  obtain ⟨-, ⟨later, -⟩, earlier⟩ := inOrder
  have kept : ∀ d ∈ front ++ back, d.id ≠ c.id := by
    intro d hd e
    rcases List.mem_append.1 hd with hd | hd
    · exact (earlier d hd c List.mem_cons_self).ne (congrArg ContainerId.sequence e)
    · exact (later d hd).ne' (congrArg ContainerId.sequence e)
  calc
    a.running.filter (fun d => d.id ≠ c.id) = (front ++ back).filter (fun d => d.id ≠ c.id) := by
      simp [runs]
    _ = front ++ back := List.filter_eq_self.2 fun d hd => by simpa using kept d hd

namespace Leaf

variable {ledger : Ledger} {l m : Leaf} {before after : List App} {a : App}
  {front back : List Container} {c : Container}

/-- Containers of a leaf are told apart by their numbers. -/
theorem nodup_ids (records : ledger.Records l.apps) : (l.running.map Container.id).Nodup := by
  rw [running, List.map_flatMap, List.nodup_flatMap]
  constructor
  · intro a ha
    have inOrder := (records.follows a ha).inOrder
    exact List.pairwise_map.2 (inOrder.imp fun less e => less.ne (congrArg ContainerId.sequence e))
  · have attempts := List.pairwise_map.1 records.distinct
    refine attempts.imp_of_mem fun {a b} ha hb ne id hida hidb => ne ?_
    obtain ⟨c, hc, rfl⟩ := List.mem_map.1 hida
    obtain ⟨d, hd, e⟩ := List.mem_map.1 hidb
    rw [← (records.follows a ha).own c hc, ← (records.follows b hb).own d hd, e]

theorem updateApp?_append {attempt : AttemptId} (k : App → App)
    (others : ∀ b ∈ before, b.attempt ≠ attempt) (own : a.attempt = attempt) :
    updateApp? attempt k (before ++ a :: after) = some (before ++ k a :: after) := by
  induction before with
  | nil => simp [updateApp?, own]
  | cons b rest ih =>
    have here := others b List.mem_cons_self
    have later := ih fun b hb => others b (List.mem_cons_of_mem _ hb)
    rw [List.cons_append, updateApp?, if_neg here, later]
    rfl

/-- One container less in a leaf. -/
theorem running_perm_of_split (apps : l.apps = before ++ a :: after)
    (runs : a.running = front ++ c :: back)
    (less : m.apps = before ++ { a with running := front ++ back } :: after) :
    l.running.Perm (c :: m.running) := by
  rw [running, running, apps, less, List.flatMap_append, List.flatMap_append, List.flatMap_cons,
    List.flatMap_cons, runs]
  calc
    List.Perm _ (before.flatMap App.running ++
        (c :: (front ++ back ++ after.flatMap App.running))) :=
      (List.perm_middle.append_right _).append_left _
    List.Perm _ (c :: (before.flatMap App.running ++
        (front ++ back ++ after.flatMap App.running))) := List.perm_middle

theorem app?_of_mem (records : ledger.Records l.apps) (ha : a ∈ l.apps) :
    l.app? a.attempt = some a := by
  cases found : l.app? a.attempt with
  | none => exact absurd rfl (app?_eq_none_iff.1 found a ha)
  | some b =>
    have hb : b ∈ l.apps := List.mem_of_find?_eq_some found
    have same : b.attempt = a.attempt := by simpa using List.find?_some found
    rw [List.inj_on_of_nodup_map records.distinct hb ha same]

/-- A release takes the container of that number out of its application. -/
theorem release?_of_split (records : ledger.Records l.apps) (apps : l.apps = before ++ a :: after)
    (runs : a.running = front ++ c :: back) :
    l.release? c.id =
      some { l with apps := before ++ { a with running := front ++ back } :: after } := by
  have ha : a ∈ l.apps := by simp [apps]
  have hc : c ∈ a.running := by simp [runs]
  have follows := records.follows a ha
  have own : c.id.attempt = a.attempt := follows.own c hc
  have others : ∀ b ∈ before, b.attempt ≠ a.attempt := by
    have distinct := records.distinct
    rw [apps, List.map_append, List.map_cons, List.nodup_append] at distinct
    intro b hb
    exact distinct.2.2 _ (List.mem_map_of_mem hb) _ List.mem_cons_self
  have present : (a.running.all fun d => d.id ≠ c.id) = false := by
    rw [List.all_eq_false]
    exact ⟨c, hc, by simp⟩
  rw [release?, own, app?_of_mem records ha]
  dsimp only
  rw [present, if_neg Bool.false_ne_true, apps, updateApp?_append _ others rfl,
    follows.filter_running runs]
  rfl

/-- A container that runs in a leaf is released once, and alone. -/
theorem exists_release (records : ledger.Records l.apps) (ha : a ∈ l.apps) (hc : c ∈ a.running) :
    ∃ before after front back, l.apps = before ++ a :: after ∧
      a.running = front ++ c :: back ∧
      let m : Leaf := { l with apps := before ++ { a with running := front ++ back } :: after }
      l.release? c.id = some m ∧ l.running.Perm (c :: m.running) ∧ m.release? c.id = none := by
  obtain ⟨before, after, apps⟩ := List.append_of_mem ha
  obtain ⟨front, back, runs⟩ := List.append_of_mem hc
  refine ⟨before, after, front, back, apps, runs, ?_⟩
  intro m
  have released : l.release? c.id = some m := release?_of_split records apps runs
  have perm : l.running.Perm (c :: m.running) := running_perm_of_split apps runs rfl
  refine ⟨released, perm, ?_⟩
  -- No other container has the number that was released.
  have ids := (perm.map Container.id).nodup_iff.1 (nodup_ids records)
  have gone : c.id ∉ m.running.map Container.id := (List.nodup_cons.1 ids).1
  rw [release?_eq_none_iff (records.release released)]
  intro d hd e
  exact gone (List.mem_map.2 ⟨d, hd, e⟩)

end Leaf

namespace Forest

variable {f : Forest} {q : QueueId} {v : Victim}

/-- What is to be given up is what a leaf gives up. -/
theorem leaf_of_victimBelow {s : Shape} (plain : ∀ p ∈ s.ids, (f.node p).isScripted = false)
    (found : f.victimBelow s = some v) :
    ∃ p ∈ s.ids, ∃ l, (f.node p).body = .leaf l ∧ (f.node p).name = v.queue ∧
      l.victim? = some ⟨v.container, v.resource⟩ := by
  induction s with
  | node q below ih =>
    rcases Node.body_of_not_scripted (plain q (Shape.id_mem_ids _)) with ⟨c, hb⟩ | ⟨l, hb⟩
    · rw [victimBelow_of_composite hb] at found
      obtain ⟨t, chosen, found⟩ := Option.bind_eq_some_iff.1 found
      have ht := mem_of_firstGreatest chosen
      have inside (p : QueueId) (hp : p ∈ t.ids) : p ∈ (Shape.node q below).ids :=
        Shape.mem_ids_node.2 (.inr ⟨t, ht, hp⟩)
      obtain ⟨p, hp, facts⟩ := ih t ht (fun p hp => plain p (inside p hp)) found
      exact ⟨p, inside p hp, facts⟩
    · rw [victimBelow_of_leaf hb] at found
      obtain ⟨c, chosen, rfl⟩ := Option.map_eq_some_iff.1 found
      exact ⟨q, Shape.id_mem_ids _, l, hb, rfl, chosen⟩

theorem releaseContainer_of_leaf {l m : Leaf} {id : ContainerId}
    (hb : (f.node q).body = .leaf l) (released : l.release? id = some m) :
    f.releaseContainer? q id = some (f.update q (Node.mapLeaf fun _ => m)) := by
  rw [releaseContainer?, changeLeaf?, hb]
  simp only [released, Option.map_some]

end Forest

namespace QueueTree

/-- A tree that was built holds nothing yet and has no scripted leaf. -/
theorem vacant_of_build {factory : PolicyFactory} {a : Allocation}
    {asked : List String} {t : QueueTree} (built : buildWith factory a = (asked, .ok t)) :
    ∀ p, (t.forest.node p).isScripted = false ∧ (t.forest.node p).apps = [] := by
  apply build_induction
    (P := fun t => ∀ p, (t.forest.node p).isScripted = false ∧ (t.forest.node p).apps = [])
    _ _ built
  · intro t bare p
    obtain ⟨n, plain, -, empty, nodes⟩ := bare.nodes
    rw [Forest.node, nodes]
    cases p with
    | zero => exact ⟨plain, empty⟩
    | succ p => exact ⟨rfl, rfl⟩
  · intro t t' created _ vacant p
    rw [created.isScripted, created.apps]
    exact vacant p

end QueueTree

namespace System

/-- No operation makes a scripted leaf of another queue, nor another queue of one. -/
theorem isScripted_perform (s : System) (e : Event) (q : QueueId) :
    ((s.perform e).forest.node q).isScripted = (s.forest.node q).isScripted := by
  cases quiet : e.keepsRoster with
  | true =>
    exact Forest.field_of_roster Node.isScripted Node.roster_isScripted (roster_perform quiet) q
  | false =>
    cases e with
    | submit p attempt user =>
      cases h : s.forest.submit? p attempt user with
      | none => rw [perform, h]; rfl
      | some g => rw [perform, h]; exact (Forest.sheds_submit h).scripted q
    | finish p attempt =>
      cases h : s.forest.finish? p attempt with
      | none => rw [perform, h]; rfl
      | some answer => rw [perform, h]; exact (Forest.sheds_finish h).scripted q
    | createLeaf name policy => exact (s.tree.createLeaf_creates name policy).1.isScripted q
    | _ => cases quiet

theorem isScripted_run (s : System) (events : List Event) (q : QueueId) :
    ((s.run events).forest.node q).isScripted = (s.forest.node q).isScripted := by
  induction events generalizing s with
  | nil => rfl
  | cons e rest ih => exact (ih (s.perform e)).trans (isScripted_perform s e q)

/-- What a queue names to be given up runs in one of its leaves, and can be released there once,
with nothing else. -/
theorem victim_reclaimed {s : System} (plain : ∀ p, (s.forest.node p).isScripted = false)
    (empty : ∀ p, (s.forest.node p).apps = []) (events : List Event) {q : QueueId} {v : Victim} :
    let f := (s.run events).forest
    f.victim? q = some v →
      (∀ (t : Session) (name : String), t.forest = f → t.queue? name = .ok q →
        t.run (.query name .victim) = (t, .ok (.victim (some v)))) ∧
      ∃ leaf ∈ f.queues q, ∃ l before a after front back,
        (f.node leaf).name = v.queue ∧ (f.node leaf).body = .leaf l ∧
        l.apps = before ++ a :: after ∧
        a.running = front ++ ⟨v.container, v.resource⟩ :: back ∧
        let m : Leaf := { l with apps := before ++ { a with running := front ++ back } :: after }
        let g := f.update leaf (Node.mapLeaf fun _ => m)
        f.releaseContainer? leaf v.container = some g ∧ (g.node leaf).body = .leaf m ∧
        (∀ dim, Resource.exact (l.running.map Container.resource) dim =
          v.resource.get dim + Resource.exact (m.running.map Container.resource) dim) ∧
        g.releaseContainer? leaf v.container = none := by
  intro f found
  constructor
  · intro t name ht hq
    rw [Session.run, Session.answer, Session.ask, hq]
    show (t, Except.ok (Reply.victim (t.forest.victim? q))) = _
    rw [ht, found]
  rw [Forest.victim?] at found
  obtain ⟨leaf, hleaf, l, hb, name, chosen⟩ := Forest.leaf_of_victimBelow
    (fun p _ => (isScripted_run s events p).trans (plain p)) found
  rw [← Forest.queues_eq_ids] at hleaf
  rcases l.victim_cases with ⟨-, none⟩ | ⟨a, ha, c, hc, some⟩
  · rw [none] at chosen
    cases chosen
  obtain rfl := Option.some.inj (some.symm.trans chosen)
  have records : (s.ledger leaf events).Records (f.node leaf).apps :=
    records_run (empty leaf ▸ .nil _) events
  rw [Node.apps_of_leaf hb] at records
  obtain ⟨before, after, front, back, apps, runs, released, perm, again⟩ :=
    Leaf.exists_release records ha hc
  refine ⟨leaf, hleaf, l, before, a, after, front, back, name, hb, apps, runs, ?_⟩
  intro m g
  have known : leaf < f.nodes.size := by
    by_contra unknown
    rw [Forest.node_of_size_le (Nat.not_lt.1 unknown)] at hb
    cases hb
    cases ha
  have body : (g.node leaf).body = .leaf m := by
    rw [Forest.node_update_self f _ known, Node.mapLeaf, hb]
  refine ⟨Forest.releaseContainer_of_leaf hb released, body, fun dim => ?_, ?_⟩
  · rw [Resource.exact_perm (perm.map Container.resource)]
    rfl
  · rw [Forest.releaseContainer?, Forest.changeLeaf?_eq_none_iff body]
    exact again

/-- Two leaves that are served in turn; the one that uses more loses its newest container. -/
def contested : List Event :=
  let machine : Machine := ⟨"m", .ofMemoryCores 9 9, none⟩
  [.createLeaf "root.b" .fair, .submit 1 ⟨⟨1⟩, 1⟩ "ann", .submit 2 ⟨⟨2⟩, 1⟩ "bob",
    .request 1 ⟨⟨1⟩, 1⟩ (.ofMemoryCores 2 1), .request 2 ⟨⟨2⟩, 1⟩ (.ofMemoryCores 3 1),
    .request 2 ⟨⟨2⟩, 1⟩ (.ofMemoryCores 4 1), .request 2 ⟨⟨2⟩, 1⟩ (.ofMemoryCores 5 1),
    .assign 0 machine, .assign 0 machine, .assign 0 machine, .assign 2 machine,
    .release 2 ⟨⟨⟨2⟩, 1⟩, 1⟩]

theorem victim_reclaimed_contested :
    ∃ asked t, QueueTree.build QueueTree.resolveNamed QueueTree.oneLeaf = (asked, .ok t) ∧
      (∀ p, (t.forest.node p).isScripted = false) ∧ (∀ p, (t.forest.node p).apps = []) ∧
      let f := (({ tree := t } : System).run contested).forest
      f.victim? 0 = some ⟨⟨⟨⟨2⟩, 1⟩, 3⟩, "root.b", .ofMemoryCores 5 1⟩ ∧
        ∃ leaf ∈ f.queues 0, ∃ g, f.releaseContainer? leaf ⟨⟨⟨2⟩, 1⟩, 3⟩ = some g ∧
          g.releaseContainer? leaf ⟨⟨⟨2⟩, 1⟩, 3⟩ = none := by
  have facts : ∀ t ∈ (QueueTree.build QueueTree.resolveNamed QueueTree.oneLeaf).2.toOption,
      (({ tree := t } : System).run contested).forest.victim? 0 =
        some ⟨⟨⟨⟨2⟩, 1⟩, 3⟩, "root.b", .ofMemoryCores 5 1⟩ := by decide +kernel
  obtain ⟨asked, t, built, found⟩ := QueueTree.exists_built (by decide +kernel) facts
  have plain (p : QueueId) := (QueueTree.vacant_of_build built p).1
  have empty (p : QueueId) := (QueueTree.vacant_of_build built p).2
  obtain ⟨-, leaf, hleaf, _, _, _, _, _, _, -, -, -, -, released, -, -, again⟩ :=
    victim_reclaimed (s := { tree := t }) plain empty contested found
  exact ⟨asked, t, built, plain, empty, found, leaf, hleaf, _, released, again⟩

end System
end FairShare
