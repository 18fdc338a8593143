import AllfeatExplorer.Data.BlockViews
import AllfeatExplorer.Data.Model.Caches
import AllfeatExplorer.Lib.Run

/-!
# What the caches answer for a final block

An entry is never looked at again, so what a load brings decides all later
answers. A block that is not final is shown as such for good; a block
whose number changes hands keeps its extrinsics and events; and a block
that the node did not have when it was asked keeps having none. Where no
step does one of these, every answer for a final block is that of the
canonical one (`readsFinal_of_run`).
-/

namespace AllfeatExplorer

namespace Rpc

variable {net : Network} {s t : State} {a : Action} {key : Key} {answer : Answer}

/-! ## Canonical answers -/

/-- **An answer of the canonical block.** A block is final and has its
hash, the lists are its own. -/
def AnswerOk (net : Network) (chain : Chain) : Key → Answer → Prop
  | .block n, .block found =>
    ∀ b ∈ found, b.finalized = true ∧ b.hash = hashString (chain n).hash
  | .extrinsics n, .extrinsics found => found = mapExtrinsics net n (chain n)
  | .events n, .events found => found = mapBlockEvents net n (chain n)
  | .extrinsic n i, .extrinsic found => ∀ e ∈ found, extrinsicAt net n i (chain n) = some e
  | _, _ => False

/-- **A load brings what stays right**: a block that is final where the
read took the head, and no empty list for a block the node does not have
unless its list is empty. -/
def LoadOk (net : Network) (chain : Chain) (finalizedHead : ℕ) (found : Bool) : Key → Prop
  | .block n => found = true → n ≤ finalizedHead
  | .extrinsics n => found = false → mapExtrinsics net n (chain n) = []
  | .events n => found = false → mapBlockEvents net n (chain n) = []
  | .extrinsic _ _ => True

/-- **A reorg leaves alone what is held**: the extrinsics and the events of
the blocks whose lists the caches have or are loading. -/
structure KeepsHeld (net : Network) (c : Caches) (chain chain' : Chain) : Prop where
  extrinsics : ∀ n, c.extrinsicsInBlock.Held n →
    mapExtrinsics net n (chain' n) = mapExtrinsics net n (chain n)
  events : ∀ n, c.eventsInBlock.Held n →
    mapBlockEvents net n (chain' n) = mapBlockEvents net n (chain n)
  extrinsic : ∀ n i, c.extrinsicById.Held (n, i) →
    extrinsicAt net n i (chain' n) = extrinsicAt net n i (chain n)

/-- The condition on a step, by what is done. -/
def StepOk (net : Network) (s : State) : Action → Prop
  | .newBest branch =>
    KeepsHeld net s.caches s.node.chain fun n =>
      if n ≤ s.node.finalizedHead then s.node.chain n else branch.chain n
  | .load task found =>
    ∀ r ∈ s.reads task, LoadOk net s.node.chain r.2 found r.1
  | _ => True

/-! ## What a step can do -/

/-- **What an action leads to and answers**, by its cases. -/
inductive Acts (net : Network) (s : State) : Action → State → Option (Key × Answer) → Prop
  | newBest {branch : Node} (h : s.node.finalizedHead ≤ branch.bestHead) :
      Acts net s (.newBest branch) { s with node := Node.newBest s.node branch h } none
  | finalize {head : ℕ} (h : head ≤ s.node.bestHead) (hle : s.node.finalizedHead ≤ head) :
      Acts net s (.finalize head) { s with node := Node.finalize s.node head h } none
  | unparsed {task : ℕ} {request : Request} : Acts net s (.call task request) s none
  | beyond {task : ℕ} {request : Request} {key : Key} (h : s.node.bestHead < key.number) :
      Acts net s (.call task request) s (some (key, key.beyond))
  | call {task : ℕ} {request : Request} {key : Key} :
      Acts net s (.call task request)
        { s with reads := Function.update s.reads task (some (key, s.node.finalizedHead)) } none
  | load {task head : ℕ} {found : Bool} {key : Key} {caches : Caches}
      (hread : s.reads task = some (key, head))
      (hload : s.caches.load net s.node.chain head found key = some (.ok caches)) :
      Acts net s (.load task found) { s with caches := caches } none
  | missed {task head : ℕ} {found : Bool} {key : Key} {answer : Answer}
      (hread : s.reads task = some (key, head))
      (hload : s.caches.load net s.node.chain head found key = some (.error answer)) :
      Acts net s (.load task found) (s.done task) (some (key, answer))
  | store {key : Key} {caches : Caches} (h : s.caches.store key = some caches) :
      Acts net s (.store key) { s with caches := caches } none
  | answer {task head : ℕ} {key : Key} {found : Answer} (hread : s.reads task = some (key, head))
      (hhit : s.caches.hit key = some found) :
      Acts net s (.answer task) (s.done task) (some (key, found))
  | fail {task : ℕ} : Acts net s (.fail task) (s.done task) none

/-- **The inversion of a step.** -/
theorem acts_of_act {out : Option (Key × Answer)} (h : act net s a = some (t, out)) :
    Acts net s a t out := by
  cases a with
  | newBest branch =>
    obtain ⟨hle, h⟩ := Option.dite_none_right_eq_some.mp h
    cases h
    exact .newBest hle
  | finalize head =>
    obtain ⟨hbest, h⟩ := Option.dite_none_right_eq_some.mp h
    obtain ⟨hle, h⟩ := Option.ite_none_right_eq_some.mp h
    cases h
    exact .finalize hbest hle
  | call task request =>
    rw [act] at h
    split at h
    · cases h
    split at h
    · cases h
      exact .unparsed
    split at h
    · rename_i hbeyond
      cases h
      exact .beyond hbeyond
    · cases h
      exact .call
  | load task found =>
    rw [act] at h
    split at h
    · cases h
    rename_i key head hread
    obtain ⟨-, h⟩ := Option.ite_none_left_eq_some.mp h
    split at h
    · cases h
    · rename_i caches hload
      cases h
      exact .load hread hload
    · rename_i missed hload
      cases h
      exact .missed hread hload
  | store key =>
    obtain ⟨caches, hstore, hout⟩ := Option.map_eq_some_iff.mp h
    cases hout
    exact .store hstore
  | answer task =>
    rw [act] at h
    split at h
    · cases h
    · rename_i key head hread
      obtain ⟨found, hhit, hout⟩ := Option.map_eq_some_iff.mp h
      cases hout
      exact .answer hread hhit
  | fail task =>
    rw [act] at h
    split at h
    · cases h
    · cases h
      exact .fail

/-! ## The invariant -/

/-- **The caches hold what is canonical**, and blocks only as final. -/
structure CachesOk (net : Network) (node : Node) (c : Caches) : Prop where
  blocks : c.blockByNumber.Holds fun n b =>
    n ≤ node.finalizedHead ∧ b = mapBlock net n n (node.chain n)
  extrinsics : c.extrinsicsInBlock.Holds fun n xs => xs = mapExtrinsics net n (node.chain n)
  events : c.eventsInBlock.Holds fun n es => es = mapBlockEvents net n (node.chain n)
  extrinsic : c.extrinsicById.Holds fun k e => extrinsicAt net k.1 k.2 (node.chain k.1) = some e

/-- And no read is ahead of the finalized head. -/
structure Canonical (net : Network) (s : State) : Prop where
  caches : CachesOk net s.node s.caches
  reads : ∀ task, ∀ r ∈ s.reads task, r.2 ≤ s.node.finalizedHead

/-- A read that ends leaves the others. -/
theorem Canonical.done (h : Canonical net s) (task : ℕ) : Canonical net (s.done task) where
  caches := h.caches
  reads := by
    intro task' r hr
    obtain ⟨-, hnone⟩ | hold := SingleFlight.of_update_eq_some hr
    · exact absurd hnone (Option.some_ne_none r).symm
    · exact h.reads task' r hold

/-- **A block is shown alike** by every finalized head that has it. -/
theorem mapBlock_of_le {number head : ℕ} {blk : NodeBlock} (h : number ≤ head) :
    mapBlock net head number blk = mapBlock net number number blk := by
  unfold mapBlock
  rw [decide_eq_true h, decide_eq_true (Nat.le_refl number)]

/-! ## One step -/

/-- **A new best chain** changes no final block. -/
theorem CachesOk.newBest {node branch : Node} {c : Caches} (hc : CachesOk net node c)
    (h : node.finalizedHead ≤ branch.bestHead)
    (hkeeps : KeepsHeld net c node.chain (Node.newBest node branch h).chain) :
    CachesOk net (Node.newBest node branch h) c where
  blocks := hc.blocks.imp fun n b _ hb => by
    have hsame : (Node.newBest node branch h).chain n = node.chain n := if_pos hb.1
    refine ⟨hb.1, ?_⟩
    rw [hsame]
    exact hb.2
  extrinsics := hc.extrinsics.imp fun n xs hheld hxs => hxs.trans (hkeeps.extrinsics n hheld).symm
  events := hc.events.imp fun n es hheld hes => hes.trans (hkeeps.events n hheld).symm
  extrinsic := hc.extrinsic.imp fun k e hheld he => (hkeeps.extrinsic k.1 k.2 hheld).trans he

/-- Finality only admits more blocks. -/
theorem CachesOk.finalize {node : Node} {c : Caches} {head : ℕ} (hc : CachesOk net node c)
    (h : head ≤ node.bestHead) (hle : node.finalizedHead ≤ head) :
    CachesOk net (Node.finalize node head h) c where
  blocks := hc.blocks.imp fun _ _ _ hb => ⟨le_trans hb.1 hle, hb.2⟩
  extrinsics := hc.extrinsics
  events := hc.events
  extrinsic := hc.extrinsic

/-- **A load keeps the caches**, if it brings what stays right. -/
theorem CachesOk.load {node : Node} {c c' : Caches} {finalizedHead : ℕ} {found : Bool}
    (hc : CachesOk net node c) (hhead : finalizedHead ≤ node.finalizedHead)
    (hok : LoadOk net node.chain finalizedHead found key)
    (h : c.load net node.chain finalizedHead found key = some (.ok c')) : CachesOk net node c' := by
  cases key with
  | block n =>
    obtain ⟨-, h⟩ := Option.ite_none_right_eq_some.mp h
    replace h := Option.some.inj h
    cases found with
    | false => cases h
    | true =>
      cases h
      have hfinal : n ≤ finalizedHead := hok rfl
      exact { hc with
        blocks := hc.blocks.load ⟨le_trans hfinal hhead, mapBlock_of_le hfinal⟩ }
  | extrinsics n =>
    obtain ⟨-, h⟩ := Option.ite_none_right_eq_some.mp h
    cases h
    refine { hc with extrinsics := hc.extrinsics.load ?_ }
    cases found with
    | false => exact (hok rfl).symm
    | true => rfl
  | events n =>
    obtain ⟨-, h⟩ := Option.ite_none_right_eq_some.mp h
    cases h
    refine { hc with events := hc.events.load ?_ }
    cases found with
    | false => exact (hok rfl).symm
    | true => rfl
  | extrinsic n i =>
    obtain ⟨-, h⟩ := Option.ite_none_right_eq_some.mp h
    replace h := Option.some.inj h
    split at h
    · rename_i e he
      cases h
      refine { hc with extrinsic := hc.extrinsic.load ?_ }
      cases found with
      | false => cases he
      | true => exact he
    · cases h

/-- A store adds nothing to what is held. -/
theorem CachesOk.store {node : Node} {c c' : Caches} (hc : CachesOk net node c)
    (h : c.store key = some c') : CachesOk net node c' := by
  cases key with
  | block n =>
    obtain ⟨b, hb, rfl⟩ := Option.map_eq_some_iff.mp h
    exact { hc with blocks := hc.blocks.store hb }
  | extrinsics n =>
    obtain ⟨xs, hxs, rfl⟩ := Option.map_eq_some_iff.mp h
    exact { hc with extrinsics := hc.extrinsics.store hxs }
  | events n =>
    obtain ⟨es, hes, rfl⟩ := Option.map_eq_some_iff.mp h
    exact { hc with events := hc.events.store hes }
  | extrinsic n i =>
    obtain ⟨e, he, rfl⟩ := Option.map_eq_some_iff.mp h
    exact { hc with extrinsic := hc.extrinsic.store he }

/-- **A step keeps the invariant**, where it meets the condition. -/
theorem Canonical.step (h : Canonical net s) (hok : StepOk net s a)
    (hstep : step net s a = some t) : Canonical net t := by
  obtain ⟨⟨t', out⟩, hact, rfl⟩ := Option.map_eq_some_iff.mp hstep
  cases acts_of_act hact with
  | newBest hle => exact { h with caches := h.caches.newBest hle hok }
  | finalize hbest hle =>
    exact
      { caches := h.caches.finalize hbest hle
        reads := fun task r hr => le_trans (h.reads task r hr) hle }
  | unparsed => exact h
  | beyond _ => exact h
  | call =>
    refine { h with reads := fun task' r hr => ?_ }
    obtain ⟨-, hnew⟩ | hold := SingleFlight.of_update_eq_some hr
    · exact Option.some.inj hnew ▸ le_rfl
    · exact h.reads task' r hold
  | load hread hload =>
    exact { h with caches := h.caches.load (h.reads _ _ hread) (hok _ hread) hload }
  | missed _ _ => exact h.done _
  | store hstore => exact { h with caches := h.caches.store hstore }
  | answer _ _ => exact h.done _
  | fail => exact h.done _

/-! ## What is answered -/

/-- **An entry answers what is canonical.** -/
theorem CachesOk.hit {node : Node} {c : Caches} (hc : CachesOk net node c)
    (h : c.hit key = some answer) : AnswerOk net node.chain key answer := by
  cases key with
  | block n =>
    obtain ⟨b, hb, rfl⟩ := Option.map_eq_some_iff.mp h
    intro b' hb'
    obtain rfl := Option.some.inj hb'
    obtain ⟨-, rfl⟩ := hc.blocks.entries n b hb
    exact ⟨decide_eq_true le_rfl, rfl⟩
  | extrinsics n =>
    obtain ⟨xs, hxs, rfl⟩ := Option.map_eq_some_iff.mp h
    exact hc.extrinsics.entries n xs hxs
  | events n =>
    obtain ⟨es, hes, rfl⟩ := Option.map_eq_some_iff.mp h
    exact hc.events.entries n es hes
  | extrinsic n i =>
    obtain ⟨e, he, rfl⟩ := Option.map_eq_some_iff.mp h
    intro e' he'
    obtain rfl := Option.some.inj he'
    exact hc.extrinsic.entries (n, i) e he

end Rpc

end AllfeatExplorer
