-- Runs of a machine whose step is a partial function: a step is refused when
-- the event cannot happen in the state. The rules below carry an invariant
-- along every run whose steps all meet a condition. The last section is about
-- the log that a machine can keep of its effects.
import Mathlib.Data.List.Basic

namespace runs

variable {σ ε : Type*}

/-- The state after the events, oldest first, or `none` when the machine
refuses one of them. -/
def run (step : σ → ε → Option σ) : σ → List ε → Option σ
  | s, [] => some s
  | s, e :: es => (step s e).bind fun s' => run step s' es

/-- Each step meets the condition. The condition reads the steps before it
(each past state with its event, newest first), the state and the event. -/
def Meets (step : σ → ε → Option σ) (cond : List (σ × ε) → σ → ε → Prop) :
    List (σ × ε) → σ → List ε → Prop
  | _, _, [] => True
  | past, s, e :: es =>
    cond past s e ∧
      match step s e with
      | some s' => Meets step cond ((s, e) :: past) s' es
      | none => True

instance decidableMeets (step : σ → ε → Option σ) (cond : List (σ × ε) → σ → ε → Prop)
    [∀ past s e, Decidable (cond past s e)] :
    ∀ past s es, Decidable (Meets step cond past s es)
  | _, _, [] => inferInstanceAs (Decidable True)
  | past, s, e :: es =>
    match h : step s e with
    | some s' =>
      have := decidableMeets step cond ((s, e) :: past) s' es
      decidable_of_iff (cond past s e ∧ Meets step cond ((s, e) :: past) s' es)
        (by simp only [Meets, h])
    | none => decidable_of_iff (cond past s e) (by simp only [Meets, h, and_true])

variable {step : σ → ε → Option σ} {cond : List (σ × ε) → σ → ε → Prop}

theorem run_cons (s : σ) (e : ε) (es : List ε) :
    run step s (e :: es) = (step s e).bind fun s' => run step s' es := rfl

theorem run_append (s : σ) (es fs : List ε) :
    run step s (es ++ fs) = (run step s es).bind fun s' => run step s' fs := by
  induction es generalizing s with
  | nil => rfl
  | cons e es ih =>
    simp only [List.cons_append, run_cons]
    cases step s e with
    | none => rfl
    | some s' => simp only [Option.bind_some]; exact ih s'

theorem run_snoc {s s' : σ} {es : List ε} (h : run step s es = some s') (e : ε) :
    run step s (es ++ [e]) = step s' e := by
  rw [run_append, h, Option.bind_some, run_cons]
  cases step s' e <;> rfl

/-- An invariant of the history and the state holds after every run whose
steps meet the condition, and so does the condition of a next step. -/
theorem invariant_of_run (Inv : List (σ × ε) → σ → Prop)
    (hstep : ∀ past s e s', Inv past s → cond past s e → step s e = some s' →
      Inv ((s, e) :: past) s')
    {past : List (σ × ε)} {s s' : σ} {es fs : List ε} (h0 : Inv past s)
    (hm : Meets step cond past s (es ++ fs)) (hr : run step s es = some s') :
    ∃ past', Inv past' s' ∧ Meets step cond past' s' fs := by
  induction es generalizing past s with
  | nil =>
    simp only [run, Option.some.injEq] at hr
    subst hr
    exact ⟨past, h0, hm⟩
  | cons e es ih =>
    obtain ⟨hc, hm⟩ := hm
    rw [run_cons] at hr
    cases hs : step s e with
    | none => simp [hs] at hr
    | some s1 =>
      simp only [hs] at hm
      rw [hs, Option.bind_some] at hr
      exact ih (hstep past s e s1 h0 hc hs) hm hr

/-- An invariant of the state alone, under a condition on the state and the
event alone. -/
theorem state_invariant_of_run {cond : σ → ε → Prop} (Inv : σ → Prop)
    (hstep : ∀ s e s', Inv s → cond s e → step s e = some s' → Inv s')
    {s s' : σ} {es : List ε} (h0 : Inv s)
    (hm : Meets step (fun _ => cond) [] s es) (hr : run step s es = some s') : Inv s' := by
  rw [← List.append_nil es] at hm
  obtain ⟨_, h, _⟩ := invariant_of_run (fun _ => Inv) (fun _ s e s' => hstep s e s') h0 hm hr
  exact h

/-- An invariant that every step keeps. -/
theorem always_of_run (Inv : σ → Prop)
    (hstep : ∀ s e s', Inv s → step s e = some s' → Inv s')
    {s s' : σ} {es : List ε} (h0 : Inv s) (hr : run step s es = some s') : Inv s' := by
  induction es generalizing s with
  | nil =>
    simp only [run, Option.some.injEq] at hr
    exact hr ▸ h0
  | cons e es ih =>
    rw [run_cons] at hr
    cases hs : step s e with
    | none => simp [hs] at hr
    | some s1 =>
      rw [hs, Option.bind_some] at hr
      exact ih (hstep s e s1 h0 hs) hr

/-! ## What holds all along a run -/

/-- The state before the first event and the state after each event of the run
are fine. -/
def Throughout (step : σ → ε → Option σ) (Ok : σ → Prop) (s : σ) (es : List ε) : Prop :=
  ∀ before after s', es = before ++ after → run step s before = some s' → Ok s'

theorem Throughout.last {Ok : σ → Prop} {s s' : σ} {es : List ε} (h : Throughout step Ok s es)
    (hr : run step s es = some s') : Ok s' :=
  h es [] s' (List.append_nil es).symm hr

theorem throughout_nil {Ok : σ → Prop} {s : σ} : Throughout step Ok s [] ↔ Ok s := by
  constructor
  · intro h
    exact h [] [] s rfl rfl
  · rintro h before after s' hsplit hr
    obtain ⟨rfl, _⟩ := List.append_eq_nil_iff.mp hsplit.symm
    cases hr
    exact h

theorem throughout_cons {Ok : σ → Prop} {s s' : σ} {e : ε} {es : List ε}
    (h : step s e = some s') :
    Throughout step Ok s (e :: es) ↔ Ok s ∧ Throughout step Ok s' es := by
  constructor
  · intro hall
    refine ⟨hall [] (e :: es) s rfl rfl, fun before after t hsplit hr => ?_⟩
    apply hall (e :: before) after t (by rw [hsplit, List.cons_append])
    rw [run_cons, h, Option.bind_some, hr]
  · rintro ⟨hs, hrest⟩ before after t hsplit hr
    cases before with
    | nil =>
      cases hr
      exact hs
    | cons first before =>
      obtain ⟨rfl, hes⟩ := List.cons.inj hsplit
      rw [run_cons, h, Option.bind_some] at hr
      exact hrest before after t hes hr

theorem throughout_cons_none {Ok : σ → Prop} {s : σ} {e : ε} {es : List ε}
    (h : step s e = none) : Throughout step Ok s (e :: es) ↔ Ok s := by
  constructor
  · intro hall
    exact hall [] (e :: es) s rfl rfl
  · rintro hs before after t hsplit hr
    cases before with
    | nil =>
      cases hr
      exact hs
    | cons first before =>
      obtain ⟨rfl, _⟩ := List.cons.inj hsplit
      rw [run_cons, h] at hr
      cases hr

instance decidableThroughout (step : σ → ε → Option σ) (Ok : σ → Prop) [DecidablePred Ok] :
    ∀ s es, Decidable (Throughout step Ok s es)
  | s, [] => decidable_of_iff (Ok s) throughout_nil.symm
  | s, e :: es =>
    match h : step s e with
    | some s' =>
      have := decidableThroughout step Ok s' es
      decidable_of_iff (Ok s ∧ Throughout step Ok s' es) (throughout_cons h).symm
    | none => decidable_of_iff (Ok s) (throughout_cons_none h).symm

/-- Where a step from a fine state leads to a fine state exactly under a
condition, a run is fine all along exactly when its steps meet the condition.
Every step keeps the invariant that this rests on. -/
theorem throughout_iff_meets {cond : σ → ε → Prop} (Inv Ok : σ → Prop)
    (hinv : ∀ s e s', Inv s → step s e = some s' → Inv s')
    (hstep : ∀ s e s', Inv s → Ok s → step s e = some s' → (Ok s' ↔ cond s e))
    {past : List (σ × ε)} {s s' : σ} {es : List ε} (hi : Inv s) (h0 : Ok s)
    (hr : run step s es = some s') :
    Throughout step Ok s es ↔ Meets step (fun _ => cond) past s es := by
  induction es generalizing past s with
  | nil => exact ⟨fun _ => trivial, fun _ => throughout_nil.mpr h0⟩
  | cons e es ih =>
    rw [run_cons] at hr
    obtain ⟨s1, hs, hrest⟩ := Option.bind_eq_some_iff.mp hr
    have hok := hstep s e s1 hi h0 hs
    rw [throughout_cons hs]
    unfold Meets
    rw [hs]
    constructor
    · rintro ⟨_, hall⟩
      have h1 : Ok s1 := hall [] es s1 rfl rfl
      exact ⟨hok.mp h1, (ih (hinv s e s1 hi hs) h1 hrest).mp hall⟩
    · rintro ⟨hc, hm⟩
      exact ⟨h0, (ih (hinv s e s1 hi hs) (hok.mpr hc) hrest).mpr hm⟩

/-- An invariant that a step keeps where the states before and after it are fine
and it meets the condition. -/
theorem invariant_of_throughout {cond : σ → ε → Prop} (Inv Ok : σ → Prop)
    (hstep : ∀ s e s', Inv s → Ok s → Ok s' → cond s e → step s e = some s' → Inv s')
    {past : List (σ × ε)} {s s' : σ} {es : List ε} (h0 : Inv s) (hok : Throughout step Ok s es)
    (hm : Meets step (fun _ => cond) past s es) (hr : run step s es = some s') : Inv s' := by
  induction es generalizing past s with
  | nil =>
    cases hr
    exact h0
  | cons e es ih =>
    rw [run_cons] at hr
    obtain ⟨s1, hs, hrest⟩ := Option.bind_eq_some_iff.mp hr
    rw [throughout_cons hs] at hok
    unfold Meets at hm
    rw [hs] at hm
    obtain ⟨hok0, hokrest⟩ := hok
    have hok1 : Ok s1 := hokrest [] es s1 rfl rfl
    exact ih (hstep s e s1 h0 hok0 hok1 hm.1 hs) hokrest hm.2 hrest

/-- A condition on the event alone. -/
theorem meets_event_iff {c : ε → Prop} {past : List (σ × ε)} {s s' : σ} {es : List ε}
    (hr : run step s es = some s') :
    Meets step (fun _ _ => c) past s es ↔ ∀ e ∈ es, c e := by
  induction es generalizing past s with
  | nil => exact ⟨fun _ e he => absurd he List.not_mem_nil, fun _ => trivial⟩
  | cons e es ih =>
    rw [run_cons] at hr
    obtain ⟨s1, hs, hrest⟩ := Option.bind_eq_some_iff.mp hr
    unfold Meets
    rw [hs, List.forall_mem_cons]
    exact and_congr_right fun _ => ih hrest

/-- An invariant that a step keeps where its event meets a condition. -/
theorem invariant_of_events {c : ε → Prop} (Inv : σ → Prop)
    (hstep : ∀ s e s', Inv s → c e → step s e = some s' → Inv s')
    {s s' : σ} {es : List ε} (h0 : Inv s) (hc : ∀ e ∈ es, c e) (hr : run step s es = some s') :
    Inv s' := by
  have hm : Meets step (fun _ _ => c) [] s es := (meets_event_iff hr).mpr hc
  exact state_invariant_of_run Inv hstep h0 hm hr

/-! ## Logs -/

variable {ω γ : Type*}

/-- Each entry of the log is fine after the entries before it. -/
def EachAfter (ok : List ω → ω → Prop) (log : List ω) : Prop :=
  ∀ before e after, log = before ++ e :: after → ok before e

theorem eachAfter_nil (ok : List ω → ω → Prop) : EachAfter ok [] := by
  intro before e after h
  simp at h

/-- A new entry has to be fine after the whole log. -/
theorem eachAfter_snoc {ok : List ω → ω → Prop} {log : List ω} {e : ω} :
    EachAfter ok (log ++ [e]) ↔ EachAfter ok log ∧ ok log e := by
  constructor
  · intro h
    refine ⟨fun before x after hl => ?_, h log e [] rfl⟩
    apply h before x (after ++ [e])
    rw [hl, List.append_assoc, List.cons_append]
  · rintro ⟨hlog, he⟩ before x after hl
    rcases List.eq_nil_or_concat after with rfl | ⟨after', y, rfl⟩
    · obtain ⟨rfl, hx⟩ := List.append_inj' hl rfl
      cases hx
      exact he
    · have hl' : log ++ [e] = (before ++ x :: after') ++ [y] := by simpa using hl
      exact hlog before x after' (List.append_inj' hl' rfl).1

/-- What holds of every beginning of a log, with one entry more. -/
theorem forall_prefix_snoc {ok : List ω → Prop} {log : List ω} {e : ω} :
    (∀ before, before <+: log ++ [e] → ok before) ↔
      (∀ before, before <+: log → ok before) ∧ ok (log ++ [e]) := by
  simp only [List.prefix_concat_iff]
  constructor
  · intro h
    exact ⟨fun before hb => h before (Or.inr hb), h _ (Or.inl rfl)⟩
  · rintro ⟨hbefore, hlast⟩ before (rfl | hb)
    · exact hlast
    · exact hbefore before hb

/-- What the function reads in the last entry where it reads something. -/
def lastSome (f : ω → Option γ) (log : List ω) : Option γ := (log.filterMap f).getLast?

theorem lastSome_snoc_some {f : ω → Option γ} {log : List ω} {e : ω} {c : γ} (h : f e = some c) :
    lastSome f (log ++ [e]) = some c := by
  simp [lastSome, List.filterMap_append, h]

theorem lastSome_snoc_none {f : ω → Option γ} {log : List ω} {e : ω} (h : f e = none) :
    lastSome f (log ++ [e]) = lastSome f log := by
  simp [lastSome, List.filterMap_append, h]

theorem lastSome_eq_none_iff {f : ω → Option γ} {log : List ω} :
    lastSome f log = none ↔ ∀ e ∈ log, f e = none := by
  unfold lastSome
  rw [List.getLast?_eq_none_iff, List.filterMap_eq_nil_iff]

theorem mem_of_lastSome {f : ω → Option γ} {log : List ω} {c : γ} (h : lastSome f log = some c) :
    ∃ e ∈ log, f e = some c :=
  List.mem_filterMap.mp (List.mem_of_getLast? h)

end runs
