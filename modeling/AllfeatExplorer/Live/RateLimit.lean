import AllfeatExplorer.Live.Model.Session
import Mathlib.Data.List.Induction
import Mathlib.Order.Lattice

/-!
# The limit on inbound frames

A window opens with the session, and then at the first frame a second or
more after the last one did. The budget left is that of a window less its
frames so far (`Follows`), so a frame is refused just if it is the one too
many of its window. What comes within one second may be in two windows:
the limit holds over any second just if the loop stops, for this or
another reason, before too many frames are together
(`rate_limit_iff`).
-/

open scoped List

namespace AllfeatExplorer

namespace Live

variable {start w t : ℕ} {ts : List ℕ} {l : Limits} {pre fs : List (ℕ × Option Frame)}
  {f : ℕ × Option Frame}

/-! ## Windows -/

/-- The window a frame falls into. -/
def openWindow (w t : ℕ) : ℕ := if second ≤ t - w then t else w

/-- The window that is open after frames. -/
def lastWindow (start : ℕ) (ts : List ℕ) : ℕ := ts.foldl openWindow start

/-- The windows the frames fall into. -/
def windows (start : ℕ) : List ℕ → List ℕ
  | [] => []
  | t :: ts => openWindow start t :: windows (openWindow start t) ts

theorem windows_concat :
    windows start (ts ++ [t]) = windows start ts ++ [openWindow (lastWindow start ts) t] := by
  induction ts generalizing start with
  | nil => rfl
  | cons x ts ih =>
    rw [List.cons_append, windows, ih]
    rfl

theorem lastWindow_concat : lastWindow start (ts ++ [t]) = openWindow (lastWindow start ts) t :=
  List.foldl_append

theorem le_openWindow : w ≤ openWindow w t := by
  unfold openWindow
  split
  · next h =>
    unfold second at h
    omega
  · exact le_rfl

/-- No frame is in a later window than the one that is open. -/
theorem le_lastWindow (hw : w ∈ windows start ts) : w ≤ lastWindow start ts := by
  induction ts using List.reverseRecOn with
  | nil => exact absurd hw List.not_mem_nil
  | append_singleton ts t ih =>
    rw [windows_concat, List.mem_append, List.mem_singleton] at hw
    rw [lastWindow_concat]
    rcases hw with hw | rfl
    · exact (ih hw).trans le_openWindow
    · exact le_rfl

/-- A window that opens has no frame yet. -/
theorem count_of_opens (h : second ≤ t - lastWindow start ts) : (windows start ts).count t = 0 := by
  refine List.count_eq_zero.2 fun hmem => ?_
  have hle := le_lastWindow hmem
  unfold second at h
  omega

/-- A window opens at its start or at a frame. -/
theorem lastWindow_le (hstart : start ≤ t) (hts : ∀ x ∈ ts, x ≤ t) : lastWindow start ts ≤ t := by
  induction ts generalizing start with
  | nil => exact hstart
  | cons x ts ih =>
    refine ih ?_ fun y hy => hts y (List.mem_cons_of_mem x hy)
    unfold openWindow
    split
    · exact hts x List.mem_cons_self
    · exact hstart

/-- In the second from `a` on. -/
def inSecond (a t : ℕ) : Bool := decide (a ≤ t ∧ t < a + second)

/-- **A frame is in the second its window covers.** -/
theorem inSecond_openWindow (h : w ≤ t) : inSecond (openWindow w t) t = true := by
  unfold inSecond openWindow second
  rw [decide_eq_true_eq]
  split <;> omega

/-- The frames of a window are within one second. -/
theorem count_windows_le (hmono : (start :: ts).Pairwise (· ≤ ·)) :
    (windows start ts).count w ≤ ts.countP (inSecond w) := by
  induction ts using List.reverseRecOn with
  | nil => exact Nat.zero_le _
  | append_singleton ts t ih =>
    rw [← List.cons_append, List.pairwise_append] at hmono
    obtain ⟨hts, -, hlast⟩ := hmono
    have hle : lastWindow start ts ≤ t :=
      lastWindow_le (hlast start List.mem_cons_self t (by simp))
        fun x hx => hlast x (List.mem_cons_of_mem _ hx) t (by simp)
    rw [windows_concat, List.count_append, List.countP_append, List.count_singleton,
      List.countP_singleton]
    have hstep : (if openWindow (lastWindow start ts) t == w then 1 else 0) ≤
        if inSecond w t = true then 1 else 0 := by
      by_cases hw : openWindow (lastWindow start ts) t = w
      · rw [← hw, inSecond_openWindow hle]
        simp
      · rw [if_neg (by simpa using hw)]
        exact Nat.zero_le _
    exact Nat.add_le_add (ih hts) hstep

/-! ## The loop -/

/-- The times of frames. -/
def times (fs : List (ℕ × Option Frame)) : List ℕ := fs.map Prod.fst

/-- A frame that subscribes. -/
def isSubscribe : Option Frame → Bool
  | some (.text (.ok (.subscribe _))) => true
  | _ => false

/-- **A frame too many** for its window, after others. -/
def Over (start : ℕ) (pre : List (ℕ × Option Frame)) (t : ℕ) : Prop :=
  maxInboundFramesPerSec ≤
    (windows start (times pre)).count (openWindow (lastWindow start (times pre)) t)

/-- The loop goes through the frame and returns: the client closes, or has
subscribed too often. -/
def Parting (pre : List (ℕ × Option Frame)) (frame : Option Frame) : Prop :=
  frame = some .close ∨
    isSubscribe frame = true ∧ maxSubscribesPerSession ≤ pre.countP fun f => isSubscribe f.2

/-- **The loop stops before the frame.** -/
def Stops (start : ℕ) (pre : List (ℕ × Option Frame)) (f : ℕ × Option Frame) : Prop :=
  f.2 = none ∨ Over start pre f.1 ∨ ∃ pre' g, pre = pre' ++ [g] ∧ Parting pre' g.2

/-- **What the locals say of the frames so far**: the budget is what the
open window has left. -/
structure Follows (start : ℕ) (pre : List (ℕ × Option Frame)) (l : Limits) : Prop where
  windowStart : l.windowStart = lastWindow start (times pre)
  budget : l.frameBudget + (windows start (times pre)).count (lastWindow start (times pre)) =
    maxInboundFramesPerSec
  subscribes : l.subscribesEver = pre.countP fun f => isSubscribe f.2

theorem follows_new : Follows start [] (.new start) := ⟨rfl, rfl, rfl⟩

/-- **The refilled budget** is that of the window the next frame is in. -/
theorem Follows.refill (h : Follows start pre l) (t : ℕ) :
    (l.refill t).windowStart = openWindow (lastWindow start (times pre)) t ∧
      (l.refill t).frameBudget +
        (windows start (times pre)).count (openWindow (lastWindow start (times pre)) t) =
          maxInboundFramesPerSec ∧ (l.refill t).subscribesEver = l.subscribesEver := by
  unfold Limits.refill openWindow
  rw [h.windowStart]
  by_cases hopens : second ≤ t - lastWindow start (times pre)
  · rw [if_pos hopens, if_pos hopens, count_of_opens hopens]
    exact ⟨rfl, rfl, rfl⟩
  · rw [if_neg hopens, if_neg hopens]
    exact ⟨h.windowStart, h.budget, rfl⟩

/-! ## One turn -/

theorem Follows.over_iff (h : Follows start pre l) :
    Over start pre t ↔ (l.refill t).frameBudget = 0 := by
  have hbudget := (h.refill t).2.1
  unfold Over
  omega

/-- **A frame too many is refused.** -/
theorem Follows.receive_over (h : Follows start pre l) (hover : Over start pre t) (frame : Frame) :
    l.receive t (some frame) = .refuse (some rateLimitMessage) :=
  if_pos (h.over_iff.1 hover)

/-- What is gone through is one frame more. -/
theorem Follows.concat (h : Follows start pre l) {l' : Limits}
    (hwindow : l'.windowStart = (l.refill f.1).windowStart)
    (hbudget : l'.frameBudget + 1 = (l.refill f.1).frameBudget)
    (hsubscribes : l'.subscribesEver = l.subscribesEver + if isSubscribe f.2 = true then 1 else 0) :
    Follows start (pre ++ [f]) l' := by
  obtain ⟨hstart, hleft, -⟩ := h.refill f.1
  have htimes : times (pre ++ [f]) = times pre ++ [f.1] := by simp [times]
  refine ⟨?_, ?_, ?_⟩
  · rw [htimes, lastWindow_concat, hwindow, hstart]
  · rw [htimes, lastWindow_concat, windows_concat, List.count_append, List.count_singleton_self]
    omega
  · rw [List.countP_append, List.countP_singleton, hsubscribes, h.subscribes]

/-- **Where the loop stops.** -/
theorem Follows.receive_parting (h : Follows start pre l) (hover : ¬ Over start pre t)
    {frame : Frame} (hparting : Parting pre (some frame)) :
    ∃ message, l.receive t (some frame) = .last message := by
  rw [h.over_iff] at hover
  rw [Limits.receive, if_neg hover]
  rcases hparting with hclose | ⟨hsubscribes, hmany⟩
  · obtain rfl := Option.some.inj hclose
    exact ⟨_, rfl⟩
  · rw [← h.subscribes, ← (h.refill t).2.2] at hmany
    unfold isSubscribe at hsubscribes
    split at hsubscribes
    · next topic hframe =>
      obtain rfl := Option.some.inj hframe
      exact ⟨_, if_pos (Nat.lt_succ_of_le hmany)⟩
    · exact absurd hsubscribes (by simp)

/-- **And where it goes on.** -/
theorem Follows.receive_next (h : Follows start pre l) (hover : ¬ Over start pre t) {frame : Frame}
    (hparting : ¬ Parting pre (some frame)) :
    ∃ l' todo, l.receive t (some frame) = .next l' todo ∧
      Follows start (pre ++ [(t, some frame)]) l' := by
  have hleft : (l.refill t).frameBudget ≠ 0 := fun h0 => hover (h.over_iff.2 h0)
  obtain ⟨-, -, hever⟩ := h.refill t
  rw [Limits.receive, if_neg hleft]
  have hconcat : isSubscribe (some frame) = false → Follows start (pre ++ [(t, some frame)])
      { l.refill t with frameBudget := (l.refill t).frameBudget - 1 } := by
    intro hnot
    exact h.concat rfl (Nat.succ_pred_eq_of_ne_zero hleft) (by rw [hnot, ← hever]; rfl)
  unfold Limits.dispatch
  split
  · next topic =>
    have hroom : ¬ maxSubscribesPerSession < (l.refill t).subscribesEver + 1 := by
      rw [hever, h.subscribes]
      exact fun hlt => hparting (.inr ⟨rfl, Nat.le_of_lt_succ hlt⟩)
    refine ⟨_, _, if_neg hroom, ?_⟩
    exact h.concat rfl (Nat.succ_pred_eq_of_ne_zero hleft) (by rw [← hever]; rfl)
  · exact ⟨_, _, rfl, hconcat rfl⟩
  · exact ⟨_, _, rfl, hconcat rfl⟩
  · exact ⟨_, _, rfl, hconcat rfl⟩
  · exact ⟨_, _, rfl, hconcat rfl⟩
  · exact ⟨_, _, rfl, hconcat rfl⟩
  · exact ⟨_, _, rfl, hconcat rfl⟩
  · exact absurd (.inl rfl) hparting

/-! ## The timeline -/

/-- No earlier frame made the loop return. -/
def Open (pre : List (ℕ × Option Frame)) : Prop :=
  ∀ pre' g, pre = pre' ++ [g] → ¬ Parting pre' g.2

theorem open_nil : Open [] := fun pre' g h => absurd h (by simp)

theorem open_concat (h : ¬ Parting pre f.2) : Open (pre ++ [f]) := by
  intro pre' g heq
  obtain ⟨rfl, hlast⟩ := List.append_inj' heq rfl
  obtain rfl := List.singleton_inj.1 hlast
  exact h

/-- **The frames the loop goes through** after those before: a beginning of
the timeline, where it stops before none, and stops where they end. -/
structure GoesThrough (start : ℕ) (pre fs done : List (ℕ × Option Frame)) : Prop where
  begins : done <+: fs
  goes : ∀ mid f, mid ++ [f] <+: done → ¬ Stops start (pre ++ mid) f
  ends : done = fs ∨ ∃ f, done ++ [f] <+: fs ∧ Stops start (pre ++ done) f

/-- Where the timeline ends, or its next frame is not for the loop. -/
theorem GoesThrough.none (h : ∀ f ∈ fs.head?, Stops start pre f) : GoesThrough start pre fs [] := by
  refine ⟨List.nil_prefix, fun mid f hmid => ?_, ?_⟩
  · exact absurd (List.prefix_nil.1 hmid) (by simp)
  · rcases fs with - | ⟨f, fs⟩
    · exact .inl rfl
    · exact .inr ⟨f, ⟨fs, rfl⟩, by simpa using h f rfl⟩

/-- One frame, and then the rest. -/
theorem GoesThrough.cons {done : List (ℕ × Option Frame)} (hgoes : ¬ Stops start pre f)
    (h : GoesThrough start (pre ++ [f]) fs done) : GoesThrough start pre (f :: fs) (f :: done) := by
  refine ⟨List.cons_prefix_cons.2 ⟨rfl, h.begins⟩, fun mid g hmid => ?_, ?_⟩
  · rcases mid with - | ⟨first, mid⟩
    · obtain ⟨rfl, -⟩ := List.cons_prefix_cons.1 hmid
      rwa [List.append_nil]
    · obtain ⟨rfl, htail⟩ := List.cons_prefix_cons.1 hmid
      have hrest := h.goes mid g htail
      rwa [List.append_assoc, List.singleton_append] at hrest
  · rcases h.ends with hall | ⟨g, hg, hstop⟩
    · exact .inl (by rw [hall])
    · rw [List.append_assoc, List.singleton_append] at hstop
      exact .inr ⟨g, List.cons_prefix_cons.2 ⟨rfl, hg⟩, hstop⟩

/-- **What the loop processes** is what it goes through. -/
theorem Follows.processed (h : Follows start pre l) (hopen : Open pre) :
    GoesThrough start pre fs (l.processed fs) := by
  induction fs generalizing l pre with
  | nil => exact .none fun f hf => absurd hf (Option.not_mem_none f)
  | cons f fs ih =>
    obtain ⟨t, frame⟩ := f
    -- A frame that is refused is not processed, and neither is what follows.
    have hrefused (message : Option String) (hreceive : l.receive t frame = .refuse message)
        (hstop : Stops start pre (t, frame)) :
        GoesThrough start pre ((t, frame) :: fs) (l.processed ((t, frame) :: fs)) := by
      rw [Limits.processed, hreceive]
      exact .none fun f hf => Option.some.inj hf ▸ hstop
    rcases frame with - | frame
    · exact hrefused none rfl (.inl rfl)
    by_cases hover : Over start pre t
    · exact hrefused _ (h.receive_over hover frame) (.inr (.inl hover))
    have hgoes : ¬ Stops start pre (t, some frame) := by
      rintro (hnone | ho | ⟨pre', g, rfl, hparting⟩)
      · exact absurd hnone (by simp)
      · exact hover ho
      · exact hopen pre' g rfl hparting
    by_cases hparting : Parting pre (some frame)
    · obtain ⟨message, hreceive⟩ := h.receive_parting hover hparting
      rw [Limits.processed, hreceive]
      exact .cons hgoes (.none fun _ _ => .inr (.inr ⟨pre, _, rfl, hparting⟩))
    · obtain ⟨l', todo, hreceive, hfollows⟩ := h.receive_next hover hparting
      rw [Limits.processed, hreceive]
      exact .cons hgoes (ih hfollows (open_concat hparting))

/-- **A session is closed over its budget** only by a frame too many. -/
theorem Follows.over_of_rateLimited (h : Follows start pre l) (hlimited : l.rateLimited fs = true) :
    ∃ mid f, mid ++ [f] <+: fs ∧ Over start (pre ++ mid) f.1 := by
  induction fs generalizing l pre with
  | nil => exact absurd hlimited (by simp [Limits.rateLimited])
  | cons f fs ih =>
    obtain ⟨t, frame⟩ := f
    rcases frame with - | frame
    · exact absurd hlimited (by simp [Limits.rateLimited, Limits.receive])
    by_cases hover : Over start pre t
    · exact ⟨[], _, ⟨fs, rfl⟩, by rwa [List.append_nil]⟩
    by_cases hparting : Parting pre (some frame)
    · obtain ⟨message, hreceive⟩ := h.receive_parting hover hparting
      rw [Limits.rateLimited, hreceive] at hlimited
      exact absurd hlimited (by simp)
    · obtain ⟨l', todo, hreceive, hfollows⟩ := h.receive_next hover hparting
      rw [Limits.rateLimited, hreceive] at hlimited
      obtain ⟨mid, g, hg, hmid⟩ := ih hfollows hlimited
      rw [List.append_assoc, List.singleton_append] at hmid
      exact ⟨_ :: mid, g, List.cons_prefix_cons.2 ⟨rfl, hg⟩, hmid⟩

/-- **At most so many frames in any second.** -/
def WithinLimit (ts : List ℕ) : Prop := ∀ a, ts.countP (inSecond a) ≤ maxInboundFramesPerSec

theorem WithinLimit.of_prefix {more : List (ℕ × Option Frame)} (h : WithinLimit (times more))
    (hpre : pre <+: more) : WithinLimit (times pre) :=
  fun a => ((hpre.map Prod.fst).sublist.countP_le).trans (h a)

/-- **A client that keeps to the limit is not closed by it.** -/
theorem rateLimited_eq_false (hmono : (start :: times fs).Pairwise (· ≤ ·))
    (h : WithinLimit (times fs)) : (Limits.new start).rateLimited fs = false := by
  rw [← Bool.not_eq_true]
  intro hlimited
  obtain ⟨mid, f, hf, hover⟩ := follows_new.over_of_rateLimited hlimited
  rw [List.nil_append] at hover
  have htimes : times (mid ++ [f]) = times mid ++ [f.1] := by simp [times]
  have hsub : (start :: (times mid ++ [f.1])).Pairwise (· ≤ ·) := by
    rw [← htimes]
    exact hmono.sublist ((hf.map Prod.fst).sublist.cons_cons start)
  have hfew := (h.of_prefix hf) (openWindow (lastWindow start (times mid)) f.1)
  rw [htimes, List.countP_append, List.countP_singleton] at hfew
  rw [← List.cons_append, List.pairwise_append] at hsub
  obtain ⟨hmid, -, hlast⟩ := hsub
  have hle : lastWindow start (times mid) ≤ f.1 :=
    lastWindow_le (hlast start List.mem_cons_self f.1 (by simp))
      fun x hx => hlast x (List.mem_cons_of_mem _ hx) f.1 (by simp)
  rw [if_pos (inSecond_openWindow hle)] at hfew
  have hmany := hover.trans (count_windows_le hmid)
  omega

/-- **When the limit holds over any second.** Of each beginning of the
timeline with more frames in a second than the limit, just if the loop
stops before one of them: it is too many for its window, or follows an
error of the socket or the end of the session. A client that keeps to the
limit is never closed by it. -/
theorem rate_limit_iff (start : ℕ) (fs : List (ℕ × Option Frame))
    (hmono : (start :: times fs).Pairwise (· ≤ ·)) :
    (WithinLimit (times ((Limits.new start).processed fs)) ∧
        (WithinLimit (times fs) → (Limits.new start).rateLimited fs = false)) ↔
      ∀ pre, pre <+: fs →
        WithinLimit (times pre) ∨ ∃ mid f, mid ++ [f] <+: pre ∧ Stops start mid f := by
  have hfollows : Follows start [] (.new start) := follows_new
  obtain ⟨hbegin, hnone, hend⟩ : GoesThrough start [] fs ((Limits.new start).processed fs) :=
    hfollows.processed open_nil
  simp only [List.nil_append] at hnone hend
  constructor
  · rintro ⟨hwithin, -⟩ pre hpre
    rcases hend with hall | ⟨f, hf, hstop⟩
    · exact .inl (hwithin.of_prefix (by rwa [hall]))
    · rcases List.prefix_or_prefix_of_prefix hpre hf with hshort | hlong
      · rcases List.prefix_concat_iff.1 hshort with heq | hin
        · exact .inr ⟨_, f, heq ▸ List.prefix_rfl, hstop⟩
        · exact .inl (hwithin.of_prefix hin)
      · exact .inr ⟨_, f, hlong, hstop⟩
  · intro hcases
    refine ⟨?_, rateLimited_eq_false hmono⟩
    rcases hcases _ hbegin with hwithin | ⟨mid, f, hf, hstop⟩
    · exact hwithin
    · exact absurd hstop (hnone mid f hf)

/-- Two budgets, two seconds apart. -/
def twoBudgets : List (ℕ × Option Frame) :=
  List.replicate 20 (0, some .pong) ++ List.replicate 20 (2 * second, some .ping)

theorem withinLimit_twoBudgets : WithinLimit (times twoBudgets) := by
  intro a
  have htimes : times twoBudgets = List.replicate 20 0 ++ List.replicate 20 (2 * second) := rfl
  rw [htimes, List.countP_append, List.countP_replicate, List.countP_replicate]
  by_cases hfirst : inSecond a 0 = true
  · have hsecond : ¬ inSecond a (2 * second) = true := by
      unfold inSecond second at *
      rw [decide_eq_true_eq] at *
      omega
    rw [if_pos hfirst, if_neg hsecond]
    exact le_rfl
  · rw [if_neg hfirst, Nat.zero_add]
    split
    · exact le_rfl
    · exact Nat.zero_le _

/-- A frame more in the second window is refused, and what is gone through
keeps to the limit. -/
theorem rate_limit_iff_twoBudgets :
    WithinLimit (times
        ((Limits.new 0).processed (twoBudgets ++ [(2 * second + 1, some .pong)]))) ∧
      (Limits.new 0).rateLimited (twoBudgets ++ [(2 * second + 1, some .pong)]) = true := by
  refine ⟨((rate_limit_iff 0 _ (by decide +kernel)).2 fun pre hpre => ?_).1, by decide +kernel⟩
  rcases List.prefix_concat_iff.1 hpre with rfl | hin
  · exact .inr ⟨_, _, List.prefix_rfl, .inr (.inl (by unfold Over; decide +kernel))⟩
  · exact .inl (withinLimit_twoBudgets.of_prefix hin)

/-- **Twice the limit within two nanoseconds**: one budget just before the
window is over, and the next one just after. -/
theorem not_withinLimit_twoWindows : ¬ ∀ start fs, (start :: times fs).Pairwise (· ≤ ·) →
    WithinLimit (times ((Limits.new start).processed fs)) ∧
      (WithinLimit (times fs) → (Limits.new start).rateLimited fs = false) := by
  intro hall
  have hwithin := (hall 0 (List.replicate 20 (second - 1, some .pong) ++
    List.replicate 20 (second, some .pong)) (by decide +kernel)).1 (second - 1)
  exact absurd hwithin (by decide +kernel)

end Live

end AllfeatExplorer
