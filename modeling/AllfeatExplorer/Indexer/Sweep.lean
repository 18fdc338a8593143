import AllfeatExplorer.Indexer.Model.Sweep
import AllfeatExplorer.Indexer.Reconcile

/-!
# The sweep comes through every account once

The cursor is the last account of the batch before, so a batch has no
account twice and skips none that was there from the start; a batch that
is not full is the last. What the sweep writes is one `UPDATE`, which
touches no span and only raises nonces.
-/

namespace AllfeatExplorer

open Projections

/-- The columns a snapshot's activity sets. -/
def AccountBalance.span (row : AccountBalance) : ℤ × ℤ × ℤ × ℤ :=
  (row.firstSeenBlock, row.lastActivityBlock, row.firstSeenMs, row.lastActivityMs)

/-! ## The write -/

/-- **The sweep's write**, row by row: the accounts it names that have a
row get what was fetched for them. -/
theorem find_reconcileAccountBalances (blk : NodeBlock) {accounts : List AccountId}
    (hnodup : accounts.Nodup) (t : AccountTable) (a : AccountId) :
    (Sink.reconcileAccountBalances t (fetchAccountsAt blk accounts)).1.find a =
      (t.find a).map fun row =>
        if a ∈ accounts then Sink.reconcileRow ((blk.systemAccount.find a).getD default) row
        else row := by
  unfold Sink.reconcileAccountBalances
  rw [foldl_reconcileChunk, flatten_chunks (by decide)]
  simp only [fetchAccountsAt, List.foldl_map]
  induction accounts generalizing t with
  | nil => simp
  | cons b accounts ih =>
    obtain ⟨hb, hnodup⟩ := List.nodup_cons.mp hnodup
    rw [List.foldl_cons, ih hnodup, Table.find_update]
    by_cases hab : a = b
    · subst hab
      rw [if_pos rfl, Option.map_map]
      simp only [hb, List.mem_cons, true_or, if_true, if_false, Function.comp_def]
    · rw [if_neg hab]
      simp only [List.mem_cons, hab, false_or]

theorem foldl_update_contains (snapshots : List (AccountId × AccountSnapshot)) (t : AccountTable)
    (a : AccountId) :
    (snapshots.foldl (fun t s => t.update s.1 (Sink.reconcileRow s.2)) t).contains a =
      t.contains a := by
  induction snapshots generalizing t with
  | nil => rfl
  | cons s snapshots ih => rw [List.foldl_cons, ih, Table.contains_update]

/-- **What it counts** is the rows it finds, whatever the chunks. -/
theorem snd_reconcileAccountBalances (t : AccountTable)
    (snapshots : List (AccountId × AccountSnapshot)) :
    (Sink.reconcileAccountBalances t snapshots).2 =
      snapshots.countP fun s => t.contains s.1 := by
  have hchunks (chunks : List (List (AccountId × AccountSnapshot))) (st : AccountTable × ℕ) :
      (chunks.foldl Sink.reconcileChunk st).2 =
        st.2 + chunks.flatten.countP fun s => st.1.contains s.1 := by
    induction chunks generalizing st with
    | nil => rfl
    | cons c chunks ih =>
      rw [List.foldl_cons, ih, List.flatten_cons, List.countP_append]
      simp only [Sink.reconcileChunk, foldl_update_contains]
      omega
  rw [Sink.reconcileAccountBalances, hchunks, flatten_chunks (by decide)]
  exact Nat.zero_add _

namespace Reconcile

variable {size turns : ℕ} {blk : NodeBlock} {s s' : Sweep} {act : SweepAction}
  {as : List SweepAction} {t t' t'' : AccountTable} {a : AccountId} {h : ℕ}

/-! ## Steps -/

/-- **What the loop does in a step.** -/
theorem turn_cases (hturn : turn size blk s = some s') :
    (∃ cursor, s.phase = .selecting cursor ∧ sweepBatch size s.accounts.keys cursor = [] ∧
        s' = { s with phase := .complete }) ∨
      (∃ cursor accounts, s.phase = .selecting cursor ∧
        sweepBatch size s.accounts.keys cursor = accounts ∧ accounts ≠ [] ∧
        s' = { s with phase := .selected accounts }) ∨
      (∃ accounts, s.phase = .selected accounts ∧
        s' =
          { s with
            phase := .fetched accounts (fetchAccountsAt blk accounts)
            fetched := s.fetched ++ accounts }) ∨
      ∃ accounts snapshots, s.phase = .fetched accounts snapshots ∧
        s' =
          { s with
            accounts := (Sink.reconcileAccountBalances s.accounts snapshots).1
            phase := if accounts.length < size then .complete else .selecting accounts.getLast?
            report :=
              { s.report with
                accountsScanned := satAddU64 s.report.accountsScanned accounts.length
                rowsUpdated := satAddU64 s.report.rowsUpdated
                  (Sink.reconcileAccountBalances s.accounts snapshots).2 }
            updated := s.updated ++ (snapshots.map Prod.fst).filter s.accounts.contains } := by
  unfold turn at hturn
  split at hturn
  · rename_i cursor hphase
    split at hturn
    · rename_i hbatch
      exact .inl ⟨cursor, hphase, hbatch, (Option.some.inj hturn).symm⟩
    · rename_i hbatch
      exact .inr (.inl ⟨cursor, _, hphase, rfl, hbatch, (Option.some.inj hturn).symm⟩)
  · rename_i accounts hphase
    exact .inr (.inr (.inl ⟨accounts, hphase, (Option.some.inj hturn).symm⟩))
  · rename_i accounts snapshots hphase
    exact .inr (.inr (.inr ⟨accounts, snapshots, hphase, (Option.some.inj hturn).symm⟩))
  · cases hturn
  · cases hturn

/-- **The report counts the rows logged.** -/
theorem rowsUpdated_turn (hturn : turn size blk s = some s') :
    ∃ batch, s'.updated = s.updated ++ batch ∧
      s'.report.rowsUpdated = satAddU64 s.report.rowsUpdated batch.length ∨
        s'.updated = s.updated ∧ s'.report = s.report := by
  obtain ⟨cursor, -, -, rfl⟩ | ⟨cursor, accounts, -, -, -, rfl⟩ | ⟨accounts, -, rfl⟩ |
    ⟨accounts, snapshots, -, rfl⟩ := turn_cases hturn
  · exact ⟨[], .inr ⟨rfl, rfl⟩⟩
  · exact ⟨[], .inr ⟨rfl, rfl⟩⟩
  · exact ⟨[], .inr ⟨rfl, rfl⟩⟩
  · refine ⟨_, .inl ⟨rfl, ?_⟩⟩
    rw [snd_reconcileAccountBalances, ← List.countP_eq_length_filter, List.countP_map]
    rfl

/-- **At its own batch size** the loop is the sweep beside the workers. -/
theorem turn_toState {chain : Chain} {own : Action} {u : State}
    (hown : own = .select ∨ own = .fetch ∨ own = .write)
    (hstep : step chain h s.toState own = some u) :
    ∃ s', turn batchSize (chain h) s = some s' ∧ s'.toState = u := by
  rcases hown with rfl | rfl | rfl
  · simp only [step] at hstep
    split at hstep
    · rename_i cursor hphase
      have hbatch : nextBatch s.accounts cursor = sweepBatch batchSize s.accounts.keys cursor := rfl
      rw [hbatch] at hstep
      simp only [turn, hphase]
      generalize sweepBatch batchSize s.accounts.keys cursor = batch at hstep ⊢
      rcases batch with - | ⟨a, rest⟩
      · exact ⟨_, rfl, Option.some.inj hstep⟩
      · exact ⟨_, rfl, Option.some.inj hstep⟩
    · cases hstep
  · simp only [step] at hstep
    split at hstep
    · rename_i accounts hphase
      simp only [turn, hphase]
      exact ⟨_, rfl, Option.some.inj hstep⟩
    · cases hstep
  · simp only [step] at hstep
    split at hstep
    · rename_i accounts snapshots hphase
      simp only [turn, hphase]
      exact ⟨_, rfl, Option.some.inj hstep⟩
    · cases hstep

/-- **What a step of the others does**: a table with every row there was. -/
theorem others_cases (hstep : sweepStep size blk s (.others t) = some s') :
    (∀ a, s.accounts.contains a = true → t.contains a = true) ∧
      s' = { s with accounts := t } := by
  simp only [sweepStep] at hstep
  split at hstep
  · rename_i hkept
    refine ⟨fun a ha => ?_, (Option.some.inj hstep).symm⟩
    exact List.all_eq_true.mp hkept a (Table.mem_keys_iff.mpr ha)
  · cases hstep

/-! ## What a step leaves alone -/

/-- **The second table is the first, undisturbed**: the same rows, with the
spans they had, and no nonce lower. -/
structure Undisturbed (t t' : AccountTable) : Prop where
  contains : ∀ a, t'.contains a = t.contains a
  row : ∀ a row row', t.find a = some row → t'.find a = some row' →
    row'.span = row.span ∧ row.nonce ≤ row'.nonce

theorem Undisturbed.refl (t : AccountTable) : Undisturbed t t where
  contains := fun _ => rfl
  row := fun a row row' hrow hrow' => by
    obtain rfl := Option.some.inj (hrow.symm.trans hrow')
    exact ⟨rfl, le_refl _⟩

theorem Undisturbed.trans (h : Undisturbed t t') (h' : Undisturbed t' t'') :
    Undisturbed t t'' where
  contains := fun a => (h'.contains a).trans (h.contains a)
  row := fun a row row'' hrow hrow'' => by
    obtain ⟨row', hrow'⟩ : ∃ row', t'.find a = some row' := by
      rw [← Table.contains_eq_true_iff, h.contains a, Table.contains_eq_true_iff]
      exact ⟨row, hrow⟩
    obtain ⟨hspan, hnonce⟩ := h.row a row row' hrow hrow'
    obtain ⟨hspan', hnonce'⟩ := h'.row a row' row'' hrow' hrow''
    exact ⟨hspan'.trans hspan, hnonce.trans hnonce'⟩

/-- The table after rows got what was fetched for them. -/
theorem undisturbed_of_map {f : AccountId → AccountBalance → AccountBalance}
    (hfind : ∀ a, t'.find a = (t.find a).map (f a))
    (hf : ∀ a row, (f a row).span = row.span ∧ row.nonce ≤ (f a row).nonce) :
    Undisturbed t t' where
  contains := fun a => by
    rw [Table.contains, Table.contains, hfind, Option.isSome_map]
  row := fun a row row' hrow hrow' => by
    rw [hfind, hrow, Option.map_some] at hrow'
    obtain rfl := Option.some.inj hrow'
    exact hf a row

/-! ## Runs -/

/-- The steps of the sweep in a run. -/
def turnsOf (as : List SweepAction) : ℕ := as.countP SweepAction.isTurn

/-- **Where the loop stands** after `turns` of its steps, if it set out
with the rows of `t₀`. -/
def Standing (t₀ : AccountTable) (size : ℕ) (blk : NodeBlock) (turns : ℕ) (s : Sweep) : Prop :=
  match s.phase with
  | .selecting cursor =>
    Swept t₀.keys cursor s.fetched ∧ s.updated = s.fetched ∧ turns ≤ 3 * s.fetched.length
  | .selected accounts =>
    accounts ≠ [] ∧ Swept t₀.keys accounts.getLast? (s.fetched ++ accounts) ∧
      (accounts.length < size → ∀ a ∈ t₀.keys, a ∈ s.fetched ++ accounts) ∧
      (∀ a ∈ accounts, s.accounts.contains a = true) ∧ s.updated = s.fetched ∧
      turns ≤ 3 * s.fetched.length + 1
  | .fetched accounts snapshots =>
    snapshots = fetchAccountsAt blk accounts ∧ accounts ≠ [] ∧
      Swept t₀.keys accounts.getLast? s.fetched ∧
      (accounts.length < size → ∀ a ∈ t₀.keys, a ∈ s.fetched) ∧
      s.fetched = s.updated ++ accounts ∧ turns ≤ 3 * s.updated.length + 2
  | .complete =>
    s.fetched.Pairwise (· < ·) ∧ (∀ a ∈ t₀.keys, a ∈ s.fetched) ∧ s.updated = s.fetched
  | .failed => False

/-- **What holds in every state of a run.** -/
structure Sound (t₀ : AccountTable) (size : ℕ) (blk : NodeBlock) (turns : ℕ) (s : Sweep) :
    Prop where
  /-- No row is lost. -/
  kept : ∀ a ∈ t₀.keys, s.accounts.contains a = true
  present : ∀ a ∈ s.fetched, s.accounts.contains a = true
  standing : Standing t₀ size blk turns s

variable {t₀ : AccountTable}

theorem sound_start : Sound t₀ size blk 0 (Sweep.start t₀ h) where
  kept := fun _ ha => Table.mem_keys_iff.mp ha
  present := fun _ ha => absurd ha List.not_mem_nil
  standing := ⟨Swept.start, rfl, Nat.le_refl _⟩

theorem keys_sorted (t : AccountTable) : t.keys.Pairwise (· < ·) :=
  List.pairwise_map.mpr t.sorted

/-- **The others' steps** move nothing in the loop. -/
theorem Sound.others (hs : Sound t₀ size blk turns s)
    (hstep : sweepStep size blk s (.others t) = some s') : Sound t₀ size blk turns s' := by
  obtain ⟨hkept, rfl⟩ := others_cases hstep
  refine ⟨fun a ha => hkept a (hs.kept a ha), fun a ha => hkept a (hs.present a ha), ?_⟩
  have hstanding := hs.standing
  unfold Standing at hstanding ⊢
  split
  all_goals rename_i hphase; simp only at hphase; simp only [hphase] at hstanding
  · exact hstanding
  · obtain ⟨hne, hswept, hshort, hpresent, hupdated, hturns⟩ := hstanding
    exact ⟨hne, hswept, hshort, fun a ha => hkept a (hpresent a ha), hupdated, hturns⟩
  · exact hstanding
  · exact hstanding

/-- **A batch is selected**: none of the rows from before the sweep is
skipped. -/
theorem Sound.selected {cursor : Option AccountId} {accounts : List AccountId}
    (hs : Sound t₀ size blk turns s) (hphase : s.phase = .selecting cursor)
    (hbatch : sweepBatch size s.accounts.keys cursor = accounts) (hne : accounts ≠ []) :
    Sound t₀ size blk (turns + 1) { s with phase := .selected accounts } := by
  have hstanding := hs.standing
  simp only [Standing, hphase] at hstanding
  obtain ⟨hswept, hupdated, hturns⟩ := hstanding
  have hinit : ∀ a ∈ t₀.keys, a ∈ s.accounts.keys := fun a ha =>
    Table.mem_keys_iff.mpr (hs.kept a ha)
  subst hbatch
  refine ⟨hs.kept, hs.present, hne, hswept.batch (keys_sorted _) hinit hne,
    hswept.all_of_short hinit, fun a ha => ?_, hupdated, by simp only; omega⟩
  exact Table.mem_keys_iff.mp (mem_of_mem_sweepBatch ha).1

/-- **No row is left**: the sweep is through. -/
theorem Sound.exhausted {cursor : Option AccountId} (hsize : 1 ≤ size)
    (hs : Sound t₀ size blk turns s) (hphase : s.phase = .selecting cursor)
    (hbatch : sweepBatch size s.accounts.keys cursor = []) :
    Sound t₀ size blk (turns + 1) { s with phase := .complete } := by
  have hstanding := hs.standing
  simp only [Standing, hphase] at hstanding
  obtain ⟨hswept, hupdated, -⟩ := hstanding
  refine ⟨hs.kept, hs.present, hswept.sorted, fun a ha => ?_, hupdated⟩
  have hinit : ∀ a ∈ t₀.keys, a ∈ s.accounts.keys :=
    fun a ha => Table.mem_keys_iff.mpr (hs.kept a ha)
  have hshort : (sweepBatch size s.accounts.keys cursor).length < size := by
    rw [hbatch]
    exact hsize
  have hall := hswept.all_of_short hinit hshort a ha
  rwa [hbatch, List.append_nil] at hall

/-- **The batch is fetched.** -/
theorem Sound.fetched {accounts : List AccountId} (hs : Sound t₀ size blk turns s)
    (hphase : s.phase = .selected accounts) :
    Sound t₀ size blk (turns + 1)
      { s with
        phase := .fetched accounts (fetchAccountsAt blk accounts)
        fetched := s.fetched ++ accounts } := by
  have hstanding := hs.standing
  simp only [Standing, hphase] at hstanding
  obtain ⟨hne, hswept, hshort, hpresent, hupdated, hturns⟩ := hstanding
  refine ⟨hs.kept, fun a ha => ?_, rfl, hne, hswept, hshort, ?_, ?_⟩
  · rcases List.mem_append.mp ha with ha | ha
    · exact hs.present a ha
    · exact hpresent a ha
  · rw [hupdated]
  · simp only [hupdated]
    omega

/-- **The batch is written**: each of its accounts has a row, and gets what
was fetched. -/
theorem Sound.written {accounts : List AccountId}
    {snapshots : List (AccountId × AccountSnapshot)} (hs : Sound t₀ size blk turns s)
    (hphase : s.phase = .fetched accounts snapshots)
    (hturn : turn size blk s = some s') :
    Sound t₀ size blk (turns + 1) s' ∧ s'.updated = s.updated ++ accounts ∧
      ∀ a, s'.accounts.find a = (s.accounts.find a).map fun row =>
        if a ∈ accounts then Sink.reconcileRow ((blk.systemAccount.find a).getD default) row
        else row := by
  have hstanding := hs.standing
  simp only [Standing, hphase] at hstanding
  obtain ⟨rfl, hne, hswept, hshort, hfetched, hturns⟩ := hstanding
  have hnodup : accounts.Nodup := by
    have hsorted := hswept.sorted
    rw [hfetched] at hsorted
    exact (List.pairwise_append.mp hsorted).2.1.imp fun h => ne_of_lt h
  have hnames : (fetchAccountsAt blk accounts).map Prod.fst = accounts := by
    simp [fetchAccountsAt, Function.comp_def]
  have hfound : accounts.filter s.accounts.contains = accounts :=
    List.filter_eq_self.mpr fun a ha =>
      hs.present a (hfetched ▸ List.mem_append_right _ ha)
  have hfind := find_reconcileAccountBalances blk hnodup s.accounts
  have hcontains (a : AccountId) : (Sink.reconcileAccountBalances s.accounts
      (fetchAccountsAt blk accounts)).1.contains a = s.accounts.contains a := by
    rw [Table.contains, hfind, Option.isSome_map, Table.contains]
  simp only [turn, hphase, hnames, hfound] at hturn
  obtain rfl := Option.some.inj hturn
  have hlength : 0 < accounts.length := List.length_pos_of_ne_nil hne
  refine ⟨⟨fun a ha => (hcontains a).trans (hs.kept a ha),
    fun a ha => (hcontains a).trans (hs.present a ha), ?_⟩, rfl, hfind⟩
  by_cases hfull : accounts.length < size
  · simp only [Standing, if_pos hfull]
    exact ⟨hswept.sorted, hshort hfull, hfetched.symm⟩
  · simp only [Standing, if_neg hfull]
    refine ⟨hswept, hfetched.symm, ?_⟩
    rw [hfetched, List.length_append]
    omega

/-- **A step of the sweep** keeps what holds, and writes the rows it logs
and no other. -/
theorem Sound.turn (hsize : 1 ≤ size) (hs : Sound t₀ size blk turns s)
    (hturn : turn size blk s = some s') :
    Sound t₀ size blk (turns + 1) s' ∧ ∃ batch, s'.updated = s.updated ++ batch ∧
      ∀ a, s'.accounts.find a = (s.accounts.find a).map fun row =>
        if a ∈ batch then Sink.reconcileRow ((blk.systemAccount.find a).getD default) row
        else row := by
  have hnone (a : AccountId) : s.accounts.find a = (s.accounts.find a).map fun row =>
      if a ∈ [] then Sink.reconcileRow ((blk.systemAccount.find a).getD default) row else row := by
    simp
  obtain ⟨cursor, hphase, hbatch, rfl⟩ | ⟨cursor, accounts, hphase, hbatch, hne, rfl⟩ |
    ⟨accounts, hphase, rfl⟩ | ⟨accounts, snapshots, hphase, -⟩ := turn_cases hturn
  · exact ⟨hs.exhausted hsize hphase hbatch, [], (List.append_nil _).symm, hnone⟩
  · exact ⟨hs.selected hphase hbatch hne, [], (List.append_nil _).symm, hnone⟩
  · exact ⟨hs.fetched hphase, [], (List.append_nil _).symm, hnone⟩
  · obtain ⟨hsound, hupdated, hfind⟩ := hs.written hphase hturn
    exact ⟨hsound, accounts, hupdated, hfind⟩

theorem sound_step (hsize : 1 ≤ size) (hs : Sound t₀ size blk (turnsOf as) s)
    (hstep : sweepStep size blk s act = some s') :
    Sound t₀ size blk (turnsOf (as ++ [act])) s' := by
  rw [turnsOf, List.countP_append, List.countP_singleton]
  cases act with
  | turn => exact (hs.turn hsize hstep).1
  | others t => exact hs.others hstep

/-- **Every state of a run is sound.** -/
theorem sound_run (hsize : 1 ≤ size)
    (hrun : run (sweepStep size blk) (Sweep.start t₀ h) as = some s) :
    Sound t₀ size blk (turnsOf as) s :=
  inv_run_history (P := fun as s => Sound t₀ size blk (turnsOf as) s) sound_start
    (fun _ _ _ _ _ hs hstep => sound_step hsize hs hstep) hrun

/-! ## The result -/

/-- The fetched accounts ascend, and so does what is updated. -/
theorem Sound.sorted (hs : Sound t₀ size blk turns s) :
    s.fetched.Pairwise (· < ·) ∧ s.updated.Pairwise (· < ·) := by
  have hstanding := hs.standing
  unfold Standing at hstanding
  split at hstanding
  · exact ⟨hstanding.1.sorted, hstanding.2.1 ▸ hstanding.1.sorted⟩
  · obtain ⟨-, hswept, -, -, hupdated, -⟩ := hstanding
    have hsorted := (List.pairwise_append.mp hswept.sorted).1
    exact ⟨hsorted, hupdated ▸ hsorted⟩
  · obtain ⟨-, -, hswept, -, hfetched, -⟩ := hstanding
    refine ⟨hswept.sorted, ?_⟩
    have hsorted := hswept.sorted
    rw [hfetched] at hsorted
    exact (List.pairwise_append.mp hsorted).1
  · exact ⟨hstanding.1, hstanding.2.2 ▸ hstanding.1⟩
  · exact hstanding.elim

/-- Ascending keys of the table are at most as many as its rows. -/
theorem length_le_rows {accounts : List AccountId} (hsorted : accounts.Pairwise (· < ·))
    (hpresent : ∀ a ∈ accounts, t.contains a = true) : accounts.length ≤ t.rows.length := by
  have hnodup : accounts.Nodup := hsorted.imp fun h => ne_of_lt h
  have hsub : accounts ⊆ t.keys := fun a ha => Table.mem_keys_iff.mpr (hpresent a ha)
  calc accounts.length ≤ t.keys.length := (List.subperm_of_subset hnodup hsub).length_le
    _ = t.rows.length := List.length_map _

/-- **The loop ends**: until it does it has a next step, and it takes at
most three for each row. -/
theorem Sound.ends (hs : Sound t₀ size blk turns s) :
    s.phase = .complete ∨
      (turns ≤ 3 * s.accounts.rows.length ∧ ∃ s', Reconcile.turn size blk s = some s') := by
  have hstanding := hs.standing
  have hfetched := length_le_rows hs.sorted.1 hs.present
  unfold Standing at hstanding
  split at hstanding
  · rename_i cursor hphase
    refine .inr ⟨by omega, ?_⟩
    simp only [Reconcile.turn, hphase]
    split <;> exact ⟨_, rfl⟩
  · rename_i accounts hphase
    obtain ⟨hne, hswept, -, hpresent, -, hturns⟩ := hstanding
    have hlength : 0 < accounts.length := List.length_pos_of_ne_nil hne
    have hrows := length_le_rows (t := s.accounts) hswept.sorted fun a ha => by
      rcases List.mem_append.mp ha with ha | ha
      · exact hs.present a ha
      · exact hpresent a ha
    rw [List.length_append] at hrows
    refine .inr ⟨by omega, ?_⟩
    simp only [Reconcile.turn, hphase]
    exact ⟨_, rfl⟩
  · rename_i accounts snapshots hphase
    obtain ⟨-, hne, -, -, happend, hturns⟩ := hstanding
    have hlength : 0 < accounts.length := List.length_pos_of_ne_nil hne
    rw [happend, List.length_append] at hfetched
    refine .inr ⟨by omega, ?_⟩
    simp only [Reconcile.turn, hphase]
    exact ⟨_, rfl⟩
  · exact .inl ‹_›
  · exact hstanding.elim

/-- The table as the others last left it. -/
def lastLeft (t : AccountTable) : List SweepAction → AccountTable
  | [] => t
  | .turn :: as => lastLeft t as
  | .others t' :: as => lastLeft t' as

theorem lastLeft_append (t : AccountTable) (as : List SweepAction) (act : SweepAction) :
    lastLeft t (as ++ [act]) = lastLeft (lastLeft t as) [act] := by
  induction as generalizing t with
  | nil => rfl
  | cons act' as ih => cases act' <;> exact ih _

/-- **A step of the sweep disturbs no row**, also not one it updates. -/
theorem Sound.undisturbed (hsize : 1 ≤ size) (hs : Sound t₀ size blk turns s)
    (hturn : Reconcile.turn size blk s = some s') : Undisturbed s.accounts s'.accounts := by
  obtain ⟨-, batch, -, hfind⟩ := hs.turn hsize hturn
  refine undisturbed_of_map hfind fun a row => ?_
  split
  · exact ⟨rfl, le_max_left _ _⟩
  · exact ⟨rfl, le_refl _⟩

/-- **The table stays as the others last left it**, but for what the sweep
may write. -/
theorem undisturbed_run (hsize : 1 ≤ size)
    (hrun : run (sweepStep size blk) (Sweep.start t h) as = some s) :
    Undisturbed (lastLeft t as) s.accounts := by
  refine inv_run_history (P := fun as s => Undisturbed (lastLeft t as) s.accounts) ?_ ?_ hrun
  · exact Undisturbed.refl t
  · intro pre u act v hpre hu hstep
    rw [lastLeft_append]
    cases act with
    | turn => exact hu.trans ((sound_run hsize hpre).undisturbed hsize hstep)
    | others t' =>
      obtain ⟨-, rfl⟩ := others_cases hstep
      exact Undisturbed.refl t'

/-- **The reconcile sweep covers every account and disturbs nothing else.**
In every run of the loop at any batch size, among writers that insert and
update as they like: the loop is complete, or has a next step and took at
most three for each row of the table; no account is fetched or updated
twice; once it is complete every row that was there throughout has been
fetched once and updated once; and each of its steps writes to the rows it
logs the funds that were fetched and the greater nonce, and leaves every
span, so the table has the rows the others left, with the spans they
left. -/
theorem sweep_covers (hsize : 1 ≤ size)
    (hrun : run (sweepStep size blk) (Sweep.start t h) as = some s) :
    (s.phase = .complete ∨
        turnsOf as ≤ 3 * s.accounts.rows.length ∧ ∃ s', sweepStep size blk s .turn = some s') ∧
      s.fetched.Nodup ∧ s.updated.Nodup ∧
      (s.phase = .complete → ∀ a, t.contains a = true →
        s.fetched.count a = 1 ∧ s.updated.count a = 1) ∧
      (∀ s', sweepStep size blk s .turn = some s' →
        Undisturbed s.accounts s'.accounts ∧ ∃ batch, s'.updated = s.updated ++ batch ∧
          ∀ a snap, snap = (blk.systemAccount.find a).getD default →
            s'.accounts.find a = (s.accounts.find a).map fun row =>
              if a ∈ batch then
                { row with
                  free := snap.free
                  reserved := snap.reserved
                  frozen := snap.frozen
                  nonce := max row.nonce snap.nonce }
              else row) ∧
      Undisturbed (lastLeft t as) s.accounts := by
  have hs := sound_run hsize hrun
  have hnodup : s.fetched.Nodup ∧ s.updated.Nodup :=
    ⟨hs.sorted.1.imp fun h => ne_of_lt h, hs.sorted.2.imp fun h => ne_of_lt h⟩
  refine ⟨hs.ends, hnodup.1, hnodup.2, fun hcomplete a ha => ?_, fun s' hturn => ?_,
    undisturbed_run hsize hrun⟩
  · have hstanding := hs.standing
    simp only [Standing, hcomplete] at hstanding
    obtain ⟨-, hall, hupdated⟩ := hstanding
    have hin := hall a (Table.mem_keys_iff.mpr ha)
    rw [hupdated]
    exact ⟨List.count_eq_one_of_mem hnodup.1 hin, List.count_eq_one_of_mem hnodup.1 hin⟩
  · obtain ⟨batch, hbatch, hrows⟩ := (hs.turn hsize hturn).2
    refine ⟨hs.undisturbed hsize hturn, batch, hbatch, ?_⟩
    rintro a snap rfl
    exact hrows a

/-- Two accounts. -/
def twoRows : AccountTable :=
  (Table.empty.insertNew (.fill 1) ⟨0, 0, 0, 5, 0, 0, 0, 0⟩).insertNew (.fill 2)
    ⟨0, 0, 0, 0, 1, 2, 3, 4⟩

/-- One is swept, a third comes in below it, the other is next. -/
theorem sweep_covers_two :
    ∃ s, run (sweepStep 1 (bareChain 0)) (Sweep.start twoRows 0)
        [.turn, .turn, .turn, .others (twoRows.insertNew (.fill 0) ⟨0, 0, 0, 0, 9, 9, 9, 9⟩),
          .turn, .turn, .turn, .turn] = some s ∧
      s.phase = .complete ∧ s.fetched.count (.fill 1) = 1 ∧ s.updated.count (.fill 2) = 1 := by
  refine ⟨_, rfl, rfl, ?_⟩
  have hrun : run (sweepStep 1 (bareChain 0)) (Sweep.start twoRows 0)
      [.turn, .turn, .turn, .others (twoRows.insertNew (.fill 0) ⟨0, 0, 0, 0, 9, 9, 9, 9⟩),
        .turn, .turn, .turn, .turn] = some _ := rfl
  have hcovers := (sweep_covers (le_refl 1) hrun).2.2.2.1
  exact ⟨(hcovers rfl (.fill 1) (by decide)).1, (hcovers rfl (.fill 2) (by decide)).2⟩

end Reconcile

end AllfeatExplorer
