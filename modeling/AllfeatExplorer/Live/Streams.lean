import AllfeatExplorer.Lib.Run
import AllfeatExplorer.Live.Model.Streams

/-!
# A final block stays final on the live stream

The best task maps a block with the finalized head it read before. A
block may become final and be broadcast as such while it does, and then
its own frame says pending. Where that does not happen no frame takes a
finalized one back, and neither does a browser.
-/

namespace AllfeatExplorer

namespace Live

variable {net : Network} {s t : Streams} {a : StreamAction} {actions : List StreamAction}
  {frames pre post : List Block} {b b' : Block}

/-! ## Final frames -/

/-- **No frame takes back a finalized one** of its number. -/
def NoDowngrade (frames : List Block) : Prop :=
  frames.Pairwise fun b b' => b.number = b'.number → b.finalized = true → b'.finalized = true

/-- **What a browser shows as final stays final**, in the rows and in the
waveform, as frames come in. -/
def StoreKeeps (frames : List Block) : Prop :=
  ∀ pre post, frames = pre ++ post →
    (∀ b ∈ (BlockBuffers.after pre).blocks, ∀ b' ∈ (BlockBuffers.after (pre ++ post)).blocks,
      b.number = b'.number → b.finalized = true → b'.finalized = true) ∧
    ∀ w ∈ (BlockBuffers.after pre).waveformBlocks,
      ∀ w' ∈ (BlockBuffers.after (pre ++ post)).waveformBlocks,
      w.number = w'.number → w.finalized = true → w'.finalized = true

/-- The two buffers are windows of the frames. -/
theorem after_eq (frames : List Block) :
    (BlockBuffers.after frames).blocks = window Block.number blocksCap frames ∧
      (BlockBuffers.after frames).waveformBlocks =
        window WaveformBlock.number waveformCap (frames.map blockToWaveform) := by
  induction frames using List.reverseRecOn with
  | nil => exact ⟨rfl, rfl⟩
  | append_singleton frames b ih =>
    have hstep : BlockBuffers.after (frames ++ [b]) = (BlockBuffers.after frames).pushBlock b := by
      rw [BlockBuffers.after, List.foldl_append]
      rfl
    rw [hstep, List.map_append, List.map_singleton, window_concat, window_concat, ← ih.1, ← ih.2]
    exact ⟨rfl, rfl⟩

/-- **A store that takes the latest frame** downgrades no block where no
frame does. -/
theorem NoDowngrade.storeKeeps (h : NoDowngrade frames) : StoreKeeps frames := by
  rintro pre post rfl
  rw [(after_eq pre).1, (after_eq pre).2, (after_eq (pre ++ post)).1, (after_eq (pre ++ post)).2]
  constructor
  · intro b hb b' hb' hnumber hfinal
    exact window_latest (fun b : Block => b.finalized = true) h hb'
      (List.mem_append_left _ (mem_of_mem_window hb)) hnumber hfinal
  · intro w hw w' hw' hnumber hfinal
    have hmapped : ((pre ++ post).map blockToWaveform).Pairwise fun w w' =>
        w.number = w'.number → w.finalized = true → w'.finalized = true :=
      List.pairwise_map.mpr h
    refine window_latest (fun w : WaveformBlock => w.finalized = true) hmapped hw' ?_ hnumber hfinal
    rw [List.map_append]
    exact List.mem_append_left _ (mem_of_mem_window hw)

/-! ## The race -/

/-- **The best task is about to say that block `n` is pending.** -/
def BestTask.HoldsPending : BestTask → ℕ → Prop
  | .pinned number finalizedHead, n => number = n ∧ finalizedHead < n
  | .mapped block, n => block.number = n ∧ block.finalized = false
  | _, _ => False

/-- **The condition on a step**: the final frame of a block is not
broadcast while the best task is about to say that it is pending. -/
def StepOk (s : Streams) : StreamAction → Prop
  | .watchSend => ∀ block, s.watch = .mapped block → ¬ s.best.HoldsPending block.number
  | _ => True

/-! ## The invariant -/

/-- The watch task's block is final, and not above the head. -/
def WatchTask.Final (head : ℕ) : WatchTask → Prop
  | .waiting => True
  | .received number => number ≤ head
  | .mapped block => block.finalized = true ∧ block.number ≤ head

/-- What the best task calls final is not above the head. -/
def BestTask.Below (head : ℕ) : BestTask → Prop
  | .pinned _ finalizedHead => finalizedHead ≤ head
  | .mapped block => block.finalized = true → block.number ≤ head
  | _ => True

/-- **What holds between two steps.** -/
structure Streams.Inv (s : Streams) : Prop where
  watch : s.watch.Final (s.finalizedHead.getD 0)
  best : s.best.Below (s.finalizedHead.getD 0)
  /-- A number broadcast as final is not above the head. -/
  sent : ∀ b ∈ s.sent, b.finalized = true → b.number ≤ s.finalizedHead.getD 0
  /-- What is about to be called pending was not broadcast as final. -/
  pending : ∀ b ∈ s.sent, b.finalized = true → ¬ s.best.HoldsPending b.number
  noDowngrade : NoDowngrade s.sent

theorem mapBlock_finalized {head number : ℕ} {blk : NodeBlock} :
    (Rpc.mapBlock net head number blk).number = number ∧
      ((Rpc.mapBlock net head number blk).finalized = true ↔ number ≤ head) :=
  ⟨rfl, decide_eq_true_iff⟩

/-- One frame more. -/
theorem noDowngrade_concat (h : NoDowngrade frames)
    (hlast : ∀ b' ∈ frames, b'.number = b.number → b'.finalized = true → b.finalized = true) :
    NoDowngrade (frames ++ [b]) := by
  refine List.pairwise_append.mpr ⟨h, List.pairwise_singleton _ _, fun b' hb' c hc => ?_⟩
  rw [List.mem_singleton.mp hc]
  exact hlast b' hb'

theorem inv_start (finalizedHead : Option ℕ) : (Streams.start finalizedHead).Inv where
  watch := trivial
  best := trivial
  sent := fun _ hb => absurd hb List.not_mem_nil
  pending := fun _ hb => absurd hb List.not_mem_nil
  noDowngrade := .nil

/-- A head published later is not below. -/
theorem getD_le {number : ℕ}
    (h : (s.finalizedHead.all fun head => decide (head ≤ number)) = true) :
    s.finalizedHead.getD 0 ≤ number := by
  rcases hhead : s.finalizedHead with - | head
  · exact Nat.zero_le _
  · rw [hhead, Option.all_some, decide_eq_true_eq] at h
    exact h

theorem WatchTask.Final.mono {head head' : ℕ} (hle : head ≤ head') :
    ∀ {task : WatchTask}, task.Final head → task.Final head'
  | .waiting, _ => trivial
  | .received _, h => le_trans h hle
  | .mapped _, h => ⟨h.1, le_trans h.2 hle⟩

theorem BestTask.Below.mono {head head' : ℕ} (hle : head ≤ head') :
    ∀ {task : BestTask}, task.Below head → task.Below head'
  | .waiting, _ => trivial
  | .received _, _ => trivial
  | .pinned _ _, h => le_trans h hle
  | .mapped _, h => fun hfinal => le_trans (h hfinal) hle

/-! ## The steps -/

/-- **What a step does**, by its cases. -/
inductive StreamSteps (net : Network) (s : Streams) : StreamAction → Streams → Prop
  | bestReceive {number : ℕ} {hasBlocks : Bool} (h : s.best = .waiting) :
      StreamSteps net s (.bestReceive number hasBlocks) { s with
        bestHead := some number
        best := if hasBlocks then .received number else .waiting }
  | bestPin {number : ℕ} (h : s.best = .received number) :
      StreamSteps net s .bestPin { s with best := .pinned number (s.finalizedHead.getD 0) }
  | bestMap {number finalizedHead : ℕ} {blk : NodeBlock}
      (h : s.best = .pinned number finalizedHead) :
      StreamSteps net s (.bestMap blk)
        { s with best := .mapped (Rpc.mapBlock net finalizedHead number blk) }
  | bestSend {block : Block} (h : s.best = .mapped block) :
      StreamSteps net s .bestSend { s with best := .waiting, sent := s.sent ++ [block] }
  | watchReceive {number : ℕ} {hasBlocks : Bool} (h : s.watch = .waiting)
      (hhead : (s.finalizedHead.all fun head => decide (head ≤ number)) = true) :
      StreamSteps net s (.watchReceive number hasBlocks) { s with
        finalizedHead := some number
        watch := if hasBlocks then .received number else .waiting }
  | watchMap {number : ℕ} {blk : NodeBlock} (h : s.watch = .received number) :
      StreamSteps net s (.watchMap blk)
        { s with watch := .mapped (Rpc.mapBlock net number number blk) }
  | watchSend {block : Block} (h : s.watch = .mapped block) :
      StreamSteps net s .watchSend { s with watch := .waiting, sent := s.sent ++ [block] }
  | restart : StreamSteps net s .restart { s with best := .waiting, watch := .waiting }

/-- A task at another point takes no step. -/
theorem streamSteps_of_eq_some (h : streamStep net s a = some t) : StreamSteps net s a t := by
  cases a with
  | bestReceive number hasBlocks =>
    cases hbest : s.best <;> simp only [streamStep, hbest, reduceCtorEq] at h
    obtain rfl := Option.some.inj h
    exact .bestReceive hbest
  | bestPin =>
    cases hbest : s.best <;> simp only [streamStep, hbest, reduceCtorEq] at h
    obtain rfl := Option.some.inj h
    exact .bestPin hbest
  | bestMap blk =>
    cases hbest : s.best <;> simp only [streamStep, hbest, reduceCtorEq] at h
    obtain rfl := Option.some.inj h
    exact .bestMap hbest
  | bestSend =>
    cases hbest : s.best <;> simp only [streamStep, hbest, reduceCtorEq] at h
    obtain rfl := Option.some.inj h
    exact .bestSend hbest
  | watchReceive number hasBlocks =>
    cases hwatch : s.watch <;> simp only [streamStep, hwatch, reduceCtorEq] at h
    split at h
    · rename_i hhead
      obtain rfl := Option.some.inj h
      exact .watchReceive hwatch hhead
    · cases h
  | watchMap blk =>
    cases hwatch : s.watch <;> simp only [streamStep, hwatch, reduceCtorEq] at h
    obtain rfl := Option.some.inj h
    exact .watchMap hwatch
  | watchSend =>
    cases hwatch : s.watch <;> simp only [streamStep, hwatch, reduceCtorEq] at h
    obtain rfl := Option.some.inj h
    exact .watchSend hwatch
  | restart =>
    obtain rfl := Option.some.inj h
    exact .restart

/-- **The best task maps its block** with the head it read. -/
theorem inv_bestMap (hi : s.Inv) {number finalizedHead : ℕ}
    (hbest : s.best = .pinned number finalizedHead) (blk : NodeBlock) :
    ({ s with best := .mapped (Rpc.mapBlock net finalizedHead number blk) } : Streams).Inv := by
  obtain ⟨hnumber, hfinalized⟩ := @mapBlock_finalized net finalizedHead number blk
  have hbelow : finalizedHead ≤ s.finalizedHead.getD 0 := by
    have hb := hi.best
    rwa [hbest] at hb
  refine
    { watch := hi.watch
      best := fun hfinal => le_trans (hfinalized.mp hfinal) hbelow
      sent := hi.sent
      pending := ?_
      noDowngrade := hi.noDowngrade }
  rintro b hb hfinal ⟨heq, hnot⟩
  refine hi.pending b hb hfinal ?_
  rw [hbest]
  refine ⟨heq, ?_⟩
  rw [← heq, hnumber]
  exact Nat.lt_of_not_le fun hle => Bool.eq_false_iff.mp hnot (hfinalized.mpr hle)

/-- **The best task broadcasts its block.** -/
theorem inv_bestSend (hi : s.Inv) {block : Block} (hbest : s.best = .mapped block) :
    ({ s with best := .waiting, sent := s.sent ++ [block] } : Streams).Inv := by
  have hbelow : block.finalized = true → block.number ≤ s.finalizedHead.getD 0 := by
    have hb := hi.best
    rwa [hbest] at hb
  refine
    { watch := hi.watch
      best := trivial
      sent := fun b hb => ?_
      pending := fun _ _ _ => id
      noDowngrade := noDowngrade_concat hi.noDowngrade fun b hb heq hfinal => ?_ }
  · rcases List.mem_append.mp hb with hb | hb
    · exact hi.sent b hb
    · rw [List.mem_singleton.mp hb]
      exact hbelow
  · -- A frame that said final leaves nothing pending to say.
    by_contra hnot
    refine hi.pending b hb hfinal ?_
    rw [hbest]
    exact ⟨heq.symm, Bool.eq_false_iff.mpr hnot⟩

/-- **The final block is broadcast**, while the best task is not about to
say otherwise. -/
theorem inv_watchSend (hi : s.Inv) (hok : StepOk s .watchSend) {block : Block}
    (hwatch : s.watch = .mapped block) :
    ({ s with watch := .waiting, sent := s.sent ++ [block] } : Streams).Inv := by
  have hfinal : block.finalized = true ∧ block.number ≤ s.finalizedHead.getD 0 := by
    have hw := hi.watch
    rwa [hwatch] at hw
  refine
    { watch := trivial
      best := hi.best
      sent := fun b hb _ => ?_
      pending := fun b hb _ => ?_
      noDowngrade := noDowngrade_concat hi.noDowngrade fun _ _ _ _ => hfinal.1 }
  · rcases List.mem_append.mp hb with hb | hb
    · exact hi.sent b hb ‹_›
    · rw [List.mem_singleton.mp hb]
      exact hfinal.2
  · rcases List.mem_append.mp hb with hb | hb
    · exact hi.pending b hb ‹_›
    · rw [List.mem_singleton.mp hb]
      exact hok block hwatch

/-- **A step keeps the invariant**, if it is no race. -/
theorem inv_step (hi : s.Inv) (hok : StepOk s a) (h : streamStep net s a = some t) : t.Inv := by
  cases streamSteps_of_eq_some h with
  | @bestReceive number hasBlocks hbest =>
    exact
      { watch := hi.watch
        best := by cases hasBlocks <;> trivial
        sent := hi.sent
        pending := fun b _ _ => by cases hasBlocks <;> exact id
        noDowngrade := hi.noDowngrade }
  | @bestPin number hbest =>
    exact
      { watch := hi.watch
        best := Nat.le_refl _
        sent := hi.sent
        -- A number that was broadcast as final is not above the head that is read.
        pending := fun b hb hfinal hpending =>
          absurd (hi.sent b hb hfinal) (Nat.not_le.mpr hpending.2)
        noDowngrade := hi.noDowngrade }
  | bestMap hbest => exact inv_bestMap hi hbest _
  | bestSend hbest => exact inv_bestSend hi hbest
  | @watchReceive number hasBlocks hwatch hhead =>
    have hle := getD_le hhead
    exact
      { watch := by cases hasBlocks <;> first | trivial | exact Nat.le_refl _
        best := hi.best.mono hle
        sent := fun b hb hfinal => le_trans (hi.sent b hb hfinal) hle
        pending := hi.pending
        noDowngrade := hi.noDowngrade }
  | @watchMap number blk hwatch =>
    have hfinal : number ≤ s.finalizedHead.getD 0 := by
      have hw := hi.watch
      rwa [hwatch] at hw
    exact
      { watch := ⟨mapBlock_finalized.2.mpr (Nat.le_refl _), hfinal⟩
        best := hi.best
        sent := hi.sent
        pending := hi.pending
        noDowngrade := hi.noDowngrade }
  | watchSend hwatch => exact inv_watchSend hi hok hwatch
  | restart =>
    exact
      { watch := trivial
        best := trivial
        sent := hi.sent
        pending := fun _ _ _ => id
        noDowngrade := hi.noDowngrade }

/-- **A final block stays final**: in every run in which no final frame is
broadcast while the best task is about to call its block pending, no
frame takes back a finalized one of its number, and no browser downgrades
a block. -/
theorem neverDowngraded (net : Network) (finalizedHead : Option ℕ) {actions : List StreamAction}
    {t : Streams} (h : run (streamStep net) (.start finalizedHead) actions = some t)
    (hok : EveryStep (streamStep net) StepOk (.start finalizedHead) actions) :
    NoDowngrade t.sent ∧ StoreKeeps t.sent := by
  have hinv : t.Inv :=
    inv_run_of_every (fun u a v hu ha hv => inv_step hu ha hv) (inv_start finalizedHead) hok h
  exact ⟨hinv.noDowngrade, hinv.noDowngrade.storeKeeps⟩

/-! ## The race runs -/

/-- **A step that breaks the condition is a downgrade on its way**: the
best task only has to go on. -/
theorem downgraded_of_race (net : Network) (hi : s.Inv) {block : Block}
    (hwatch : s.watch = .mapped block) (hbest : s.best.HoldsPending block.number)
    (blk : NodeBlock) :
    ∃ actions t, run (streamStep net) s (.watchSend :: actions) = some t ∧
      ¬ NoDowngrade t.sent := by
  have hfinal : block.finalized = true := by
    have hw := hi.watch
    rw [hwatch] at hw
    exact hw.1
  have hdown : ∀ pending : Block, pending.number = block.number → pending.finalized = false →
      ¬ NoDowngrade ((s.sent ++ [block]) ++ [pending]) := by
    intro pending hnumber hpending hno
    have hlast := (List.pairwise_append.mp hno).2.2 block
      (List.mem_append_right _ (List.mem_singleton_self _)) pending (List.mem_singleton_self _)
      hnumber.symm hfinal
    rw [hpending] at hlast
    cases hlast
  have hsend : streamStep net s .watchSend =
      some { s with watch := .waiting, sent := s.sent ++ [block] } := by
    simp only [streamStep, hwatch]
  rcases hs : s.best with - | number | ⟨number, head⟩ | pending
  · rw [hs] at hbest
    exact absurd hbest id
  · rw [hs] at hbest
    exact absurd hbest id
  · rw [hs] at hbest
    obtain ⟨rfl, hlt⟩ := hbest
    have hdowned := hdown (Rpc.mapBlock net head block.number blk) rfl
      (decide_eq_false (Nat.not_le.mpr hlt))
    refine ⟨[.bestMap blk, .bestSend],
      { s with
        best := .waiting
        watch := .waiting
        sent := (s.sent ++ [block]) ++ [Rpc.mapBlock net head block.number blk] },
      run_cons_eq_some.mpr ⟨_, hsend, ?_⟩, hdowned⟩
    simp only [run, List.foldlM_cons, List.foldlM_nil, streamStep, hs]
    rfl
  · rw [hs] at hbest
    obtain ⟨hnumber, hpending⟩ := hbest
    refine ⟨[.bestSend],
      { s with best := .waiting, watch := .waiting, sent := (s.sent ++ [block]) ++ [pending] },
      run_cons_eq_some.mpr ⟨_, hsend, ?_⟩, hdown pending hnumber hpending⟩
    simp only [run, List.foldlM_cons, List.foldlM_nil, streamStep, hs]
    rfl

/-- Block 1 is broadcast as final, and then as the best. -/
def finalFirst : List StreamAction :=
  [.watchReceive 1 true, .watchMap (bareChain 1), .watchSend, .bestReceive 1 true, .bestPin,
    .bestMap (bareChain 1), .bestSend]

/-- Both frames say final. -/
theorem neverDowngraded_finalFirst :
    ∃ t, run (streamStep plainNetwork) (.start none) finalFirst = some t ∧
      t.sent.map Block.finalized = [true, true] ∧ NoDowngrade t.sent ∧ StoreKeeps t.sent := by
  refine ⟨_, rfl, rfl, neverDowngraded plainNetwork none
    (show run (streamStep plainNetwork) (.start none) finalFirst = some _ from rfl) ?_⟩
  refine (everyStep_cons rfl).mpr ⟨trivial, (everyStep_cons rfl).mpr ⟨trivial,
    (everyStep_cons rfl).mpr ⟨fun _ _ => id, ?_⟩⟩⟩
  exact (everyStep_cons rfl).mpr ⟨trivial, (everyStep_cons rfl).mpr ⟨trivial,
    (everyStep_cons rfl).mpr ⟨trivial, (everyStep_cons rfl).mpr ⟨trivial, trivial⟩⟩⟩⟩

/-- **Final while the best task maps it**, it is broadcast as final and
then as pending. -/
theorem not_noDowngrade_raced :
    ∃ t, run (streamStep plainNetwork) (.start none)
        [.bestReceive 1 true, .bestPin, .watchReceive 1 true, .watchMap (bareChain 1), .watchSend,
          .bestMap (bareChain 1), .bestSend] = some t ∧
      t.sent.map (fun b => (b.number, b.finalized)) = [(1, true), (1, false)] ∧
      ¬ NoDowngrade t.sent := by
  refine ⟨_, rfl, rfl, fun hno => ?_⟩
  have hlast := (List.pairwise_cons.mp hno).1 _ (List.mem_singleton_self _) rfl rfl
  revert hlast
  decide

end Live

end AllfeatExplorer
