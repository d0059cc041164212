import Mathlib.Algebra.BigOperators.Fin

/-!
# Group commit: callers, the queue and the hand-over of leadership

A caller of `Engine.group` leads at once or waits on its channel; a leader commits the queue
as one group and hands leadership on. One commit at a time is a result here, as the engine's
mutex is not modelled. `sent`, `direct` and `commits` record what happened.
-/

namespace NuclaDB.GroupCommit

open Function List

variable {ι Err : Type*}

inductive GroupResult (Err : Type*)
  | err (e : Err)
  | lead

/-- Where a caller is. `leading` has not yet taken the queue; `replying` holds the members of its
group still to be answered. -/
inductive Pc (ι Err : Type*)
  | idle
  | waiting
  | leading
  | grouped (group : List ι)
  | committing (group : List ι)
  | replying (rest : List ι) (e : Err)
  | returned (e : Err)

structure Commit (ι Err : Type*) where
  leader : ι
  group : List ι
  result : Option Err

structure State (ι Err : Type*) where
  queue : List ι
  flushing : Bool
  pc : ι → Pc ι Err
  done : ι → Option (GroupResult Err)
  sent : ι → ℕ
  direct : ι → Bool
  commits : List (Commit ι Err)

inductive Action (ι Err : Type*)
  | enqueue (i : ι)
  | receive (i : ι)
  | grab (i : ι)
  | commit (i : ι)
  | finish (i : ι) (e : Err)
  | reply (i : ι)
  | handOver (i : ι)

def init : State ι Err :=
  ⟨[], false, fun _ => .idle, fun _ => none, fun _ => 0, fun _ => false, []⟩

section Step
variable [DecidableEq ι] (s : State ι Err) (i : ι)

def goto (p : Pc ι Err) : State ι Err :=
  { s with pc := update s.pc i p }

def send (r : GroupResult Err) : State ι Err :=
  { s with
    done := update s.done i (some r)
    sent := update s.sent i (s.sent i + 1) }

def join : State ι Err :=
  let lead := !s.flushing
  { goto s i (if lead then .leading else .waiting) with
    queue := s.queue ++ [i]
    flushing := true
    direct := update s.direct i lead }

def take (p : Pc ι Err) : State ι Err :=
  { goto s i p with done := update s.done i none }

def grab : State ι Err :=
  { goto s i (.grouped s.queue) with queue := [] }

def begin (group : List ι) : State ι Err :=
  { goto s i (.committing group) with commits := s.commits ++ [⟨i, group, none⟩] }

def finishCommit (e : Err) (c : Commit ι Err) : Commit ι Err :=
  if c.leader = i ∧ c.result.isNone then { c with result := some e } else c

def finish (group : List ι) (e : Err) : State ι Err :=
  { goto s i (.replying group e) with commits := s.commits.map (finishCommit i e) }

def clear (e : Err) : State ι Err :=
  { goto s i (.returned e) with flushing := false }

def step : Action ι Err → Option (State ι Err)
  | .enqueue i =>
    match s.pc i with
    | .idle => some (join s i)
    | _ => none
  | .receive i =>
    match s.pc i, s.done i with
    | .waiting, some (.err e) => some (take s i (.returned e))
    | .waiting, some .lead => some (take s i .leading)
    | _, _ => none
  | .grab i =>
    match s.pc i with
    | .leading => some (grab s i)
    | _ => none
  | .commit i =>
    match s.pc i with
    | .grouped group => some (begin s i group)
    | _ => none
  | .finish i e =>
    match s.pc i with
    | .committing group => some (finish s i group e)
    | _ => none
  | .reply i =>
    match s.pc i with
    | .replying (q :: rest) e =>
      if q = i then some (goto s i (.replying rest e))
      else
        match s.done q with
        | none => some (send (goto s i (.replying rest e)) q (.err e))
        | some _ => none
    | _ => none
  | .handOver i =>
    match s.pc i with
    | .replying [] e =>
      match s.queue with
      | [] => some (clear s i e)
      | q :: _ =>
        match s.done q with
        | none => some (send (goto s i (.returned e)) q .lead)
        | some _ => none
    | _ => none

inductive Reachable : State ι Err → Prop
  | init : Reachable init
  | step {s s' : State ι Err} {a : Action ι Err} : Reachable s → step s a = some s' → Reachable s'

inductive Move (s : State ι Err) : State ι Err → Prop
  | join {i : ι} (hpc : s.pc i = .idle) : Move s (join s i)
  | answered {i : ι} {e : Err} (hpc : s.pc i = .waiting) (hd : s.done i = some (.err e)) :
    Move s (take s i (.returned e))
  | called {i : ι} (hpc : s.pc i = .waiting) (hd : s.done i = some .lead) : Move s (take s i .leading)
  | grab {i : ι} (hpc : s.pc i = .leading) : Move s (grab s i)
  | begin {i : ι} {group : List ι} (hpc : s.pc i = .grouped group) : Move s (begin s i group)
  | finish {i : ι} {group : List ι} {e : Err} (hpc : s.pc i = .committing group) :
    Move s (finish s i group e)
  | skip {i : ι} {rest : List ι} {e : Err} (hpc : s.pc i = .replying (i :: rest) e) :
    Move s (goto s i (.replying rest e))
  | reply {i q : ι} {rest : List ι} {e : Err} (hpc : s.pc i = .replying (q :: rest) e)
    (hne : q ≠ i) (hd : s.done q = none) : Move s (send (goto s i (.replying rest e)) q (.err e))
  | clear {i : ι} {e : Err} (hpc : s.pc i = .replying [] e) (hq : s.queue = []) : Move s (clear s i e)
  | handOver {i q : ι} {rest : List ι} {e : Err} (hpc : s.pc i = .replying [] e)
    (hq : s.queue = q :: rest) (hd : s.done q = none) : Move s (send (goto s i (.returned e)) q .lead)

theorem step_move {s s' : State ι Err} {a : Action ι Err} (h : step s a = some s') : Move s s' := by
  cases a <;> simp only [step] at h <;> grind [Move]

end Step

@[grind] def Pc.leads : Pc ι Err → Bool
  | .leading | .grouped _ | .committing _ | .replying _ _ => true
  | _ => false

/-- The members of its group that a leader has not answered, itself included. -/
@[grind] def Pc.hand : Pc ι Err → List ι
  | .grouped g | .committing g | .replying g _ => g
  | _ => []

@[grind →] theorem Pc.leads_of_mem_hand {p : Pc ι Err} {q : ι} (h : q ∈ p.hand) : p.leads = true := by
  cases p <;> simp_all [Pc.hand, Pc.leads]

def Holds (s : State ι Err) (i : ι) : Prop := (s.pc i).leads = true ∨ s.done i = some .lead

def committed (s : State ι Err) : List ι := s.commits.flatMap Commit.group

def Result (s : State ι Err) (i : ι) (e : Err) : Prop :=
  ∃ c ∈ s.commits, i ∈ c.group ∧ c.result = some e

/-- Leadership is one token: it exists while the flag is set, and whoever is in the queue or in a
leader's hand holds it or waits for an answer. -/
structure Token (s : State ι Err) : Prop where
  unique : ∀ i j, Holds s i → Holds s j → i = j
  flushing : (∃ i, Holds s i) ↔ s.flushing = true
  busy : s.queue ≠ [] → s.flushing = true
  queue_nodup : s.queue.Nodup
  queue_pc : ∀ i ∈ s.queue, s.pc i = .leading ∨
    (s.pc i = .waiting ∧ (s.done i = none ∨ s.done i = some .lead))
  leading_queue : ∀ i, s.pc i = .leading → i ∈ s.queue
  called_queue : ∀ i, s.done i = some .lead → i ∈ s.queue
  done_waiting : ∀ i, s.done i ≠ none → s.pc i = .waiting
  hand_nodup : ∀ i, (s.pc i).hand.Nodup
  hand_waits : ∀ i, ∀ q ∈ (s.pc i).hand, q = i ∨ (s.pc q = .waiting ∧ s.done q = none ∧ q ∉ s.queue)
  waits : ∀ i, s.pc i = .waiting → s.done i = none → i ∈ s.queue ∨ ∃ k, i ∈ (s.pc k).hand

/-- The log of commits: nobody is in it twice, in it and queued, or in it before its leader's
commit began. -/
structure Logged (s : State ι Err) : Prop where
  grouped : ∀ i g, s.pc i = .grouped g → i ∈ g ∧ ∀ q ∈ g, q ∉ committed s
  nodup : (committed s).Nodup
  queue : ∀ i ∈ s.queue, i ∉ committed s
  called : ∀ i ∈ committed s, s.pc i ≠ .idle

/-- A caller that led at once is sent nothing; any other is sent one value, which stays on its channel
until it is received. -/
structure Sent (s : State ι Err) : Prop where
  idle : ∀ i, s.pc i = .idle → s.sent i = 0
  waiting : ∀ i, s.pc i = .waiting → s.direct i = false ∧
    (s.done i = none → s.sent i = 0) ∧ (s.done i ≠ none → s.sent i = 1)
  past : ∀ i, s.pc i ≠ .idle → s.pc i ≠ .waiting → s.sent i = if s.direct i then 0 else 1

/-- Every answer given is the error of a finished commit that held the caller. -/
structure Answered (s : State ι Err) : Prop where
  committing : ∀ i g, s.pc i = .committing g → ⟨i, g, none⟩ ∈ s.commits ∧ i ∈ g
  replying : ∀ i rest e, s.pc i = .replying rest e → Result s i e ∧ ∀ q ∈ rest, Result s q e
  running : ∀ c ∈ s.commits, c.result = none → s.pc c.leader = .committing c.group
  answer : ∀ i e, s.done i = some (.err e) → Result s i e
  returned : ∀ i e, s.pc i = .returned e → Result s i e

theorem token_init : Token (init : State ι Err) := by
  constructor <;> simp [init, Holds, Pc.leads, Pc.hand]

theorem logged_init : Logged (init : State ι Err) := by
  constructor <;> simp [init, committed]

theorem answered_init : Answered (init : State ι Err) := by
  constructor <;> simp [init]

theorem sent_init : Sent (init : State ι Err) := by
  constructor <;> simp [init]

section Preserved
variable [DecidableEq ι] {s s' : State ι Err} {i : ι} {e : Err}

section
variable (ht : Token s)
include ht

theorem Token.leads_on {p : Pc ι Err} (hpc : s.pc i ≠ .leading)
    (hleads : (s.pc i).leads = true) (hp : p ≠ .leading) (hpleads : p.leads = true)
    (hhand : p.hand = (s.pc i).hand ∨ (s.pc i).hand = i :: p.hand) (commits : List (Commit ι Err)) :
    Token { goto s i p with commits := commits } := by
  obtain ⟨hunique, hflush, hbusy, hnodup, hqueue, hlead, hcalled, hdone, hnd, hwaits, hw⟩ := ht
  simp only [Holds] at hunique hflush
  constructor <;>
    simp only [Holds, goto, update_apply] <;>
    first | assumption | grind

theorem token_received {p : Pc ι Err} (hpc : s.pc i = .waiting)
    (hp : (∃ e, s.done i = some (.err e) ∧ p = .returned e) ∨ s.done i = some .lead ∧ p = .leading) :
    Token (take s i p) := by
  obtain ⟨hunique, hflush, hbusy, hnodup, hqueue, hlead, hcalled, hdone, hhand, hwaits, hw⟩ := ht
  simp only [Holds] at hunique hflush
  rcases hp with ⟨e, hd, rfl⟩ | ⟨hd, rfl⟩
  all_goals
    constructor <;>
      simp only [Holds, take, goto, update_apply] <;>
      first | assumption | grind

theorem token_reply {q : ι} {rest : List ι} (hpc : s.pc i = .replying (q :: rest) e) (hne : q ≠ i) :
    Token (send (goto s i (.replying rest e)) q (.err e)) := by
  obtain ⟨hunique, hflush, hbusy, hnodup, hqueue, hlead, hcalled, hdone, hhand, hwaits, hw⟩ := ht
  simp only [Holds] at hunique hflush
  constructor <;>
    simp only [Holds, send, goto, update_apply] <;>
    first | assumption | grind

theorem token_handOver {q : ι} {rest : List ι}
    (hpc : s.pc i = .replying [] e) (hq : s.queue = q :: rest) :
    Token (send (goto s i (.returned e)) q .lead) := by
  obtain ⟨hunique, hflush, hbusy, hnodup, hqueue, hlead, hcalled, hdone, hhand, hwaits, hw⟩ := ht
  simp only [Holds] at hunique hflush
  have hon : s.flushing = true := hflush.mp ⟨i, .inl (by simp [hpc, Pc.leads])⟩
  constructor
  case flushing => exact ⟨fun _ => hon, fun _ => ⟨q, .inr (by simp [send])⟩⟩
  all_goals
    simp only [Holds, send, goto, update_apply]
    grind

theorem Token.move (h : Move s s') : Token s' := by
  cases h with
  | answered hpc hd => exact token_received ht hpc (.inl ⟨_, hd, rfl⟩)
  | called hpc hd => exact token_received ht hpc (.inr ⟨hd, rfl⟩)
  | begin hpc => apply ht.leads_on <;> simp [hpc, Pc.leads, Pc.hand]
  | finish hpc => apply ht.leads_on <;> simp [hpc, Pc.leads, Pc.hand]
  | skip hpc => refine ht.leads_on ?_ ?_ ?_ ?_ ?_ s.commits <;> simp [hpc, Pc.leads, Pc.hand]
  | reply hpc hne hd => exact token_reply ht hpc hne
  | handOver hpc hq hd => exact token_handOver ht hpc hq
  | join | grab | clear =>
    obtain ⟨hunique, hflush, hbusy, hnodup, hqueue, hlead, hcalled, hdone, hhand, hwaits, hw⟩ := ht
    simp only [Holds] at hunique hflush
    constructor <;>
      simp only [Holds, join, grab, clear, goto, update_apply] <;>
      first | assumption | grind

theorem Sent.move (hs : Sent s) (h : Move s s') : Sent s' := by
  obtain ⟨hunique, -, -, -, hqueue, -, -, hdone, -, hwaits, -⟩ := ht
  obtain ⟨hidle, hwaiting, hpast⟩ := hs
  cases h <;> constructor <;>
    simp only [Holds, join, take, grab, begin, finish, clear, send, goto, update_apply]
      at * <;>
    grind

end

theorem finishCommit_group (i : ι) (e : Err) (c : Commit ι Err) :
    (finishCommit i e c).group = c.group := by
  simp only [finishCommit]
  split <;> rfl

theorem finishCommit_result {e' : Err} {c : Commit ι Err} (h : c.result = some e') :
    (finishCommit i e c).result = some e' := by
  simp [finishCommit, h]

section
variable (i : ι)

@[simp] theorem committed_finish (g : List ι) (e : Err) : committed (finish s i g e) = committed s := by
  simp [committed, finish, flatMap_map, finishCommit_group]

@[simp] theorem committed_begin (g : List ι) : committed (begin s i g) = committed s ++ g := by
  simp [committed, begin]

@[simp] theorem committed_goto (p : Pc ι Err) : committed (goto s i p) = committed s := rfl

@[simp] theorem committed_join : committed (join s i) = committed s := rfl

@[simp] theorem committed_take (p : Pc ι Err) : committed (take s i p) = committed s := rfl

@[simp] theorem committed_grab : committed (grab s i) = committed s := rfl

@[simp] theorem committed_clear (e : Err) : committed (clear s i e) = committed s := rfl

@[simp] theorem committed_send (r : GroupResult Err) : committed (send s i r) = committed s := rfl

end

theorem Logged.move (ht : Token s) (hl : Logged s) (h : Move s s') : Logged s' := by
  obtain ⟨hunique, -, -, -, hqueue, hlead, -, hdone, hhand, hwaits, -⟩ := ht
  obtain ⟨hgrouped, hnodup, hfree, hcalled⟩ := hl
  cases h <;> constructor <;>
    simp only [committed_join, committed_take, committed_grab, committed_goto, committed_clear,
      committed_send, committed_finish, committed_begin] <;>
    simp only [join, take, grab, begin, finish, clear, send, goto, update_apply, Holds]
      at * <;>
    grind

theorem Result.move (hr : Result s i e) (h : Move s s') : Result s' i e := by
  obtain ⟨c, hc, hi, he⟩ := hr
  cases h with
  | begin => exact ⟨c, mem_append_left _ hc, hi, he⟩
  | finish =>
    refine ⟨finishCommit _ _ c, mem_map_of_mem hc, ?_, finishCommit_result he⟩
    simpa only [finishCommit_group] using hi
  | _ => exact ⟨c, hc, hi, he⟩

theorem result_finish {q : ι} {g : List ι} (hc : ⟨i, g, none⟩ ∈ s.commits)
    (hq : q ∈ g) : Result (finish s i g e) q e :=
  ⟨⟨i, g, some e⟩, mem_map.mpr ⟨_, hc, by simp [finishCommit]⟩, hq, rfl⟩

theorem answered_finish (ht : Token s) (ha : Answered s) {g : List ι}
    (hpc : s.pc i = .committing g) : Answered (finish s i g e) := by
  obtain ⟨hunique, -, -, -, -, -, -, hdone, -, hwaits, -⟩ := ht
  obtain ⟨hcommitting, hreplying, hrunning, hanswer, hreturned⟩ := ha
  have hkeep : ∀ {k e'}, Result s k e' → Result (finish s i g e) k e' :=
    fun hr => hr.move (.finish hpc)
  have hnew : ∀ q ∈ g, Result (finish s i g e) q e :=
    fun q hq => result_finish (hcommitting i g hpc).1 hq
  constructor <;>
    simp only [finish, goto, update_apply, mem_map, Holds] at * <;>
    grind [finishCommit]

theorem answered_begin (hl : Logged s) (ha : Answered s) {g : List ι}
    (hpc : s.pc i = .grouped g) : Answered (begin s i g) := by
  have hgrouped := hl.grouped
  obtain ⟨hcommitting, hreplying, hrunning, hanswer, hreturned⟩ := ha
  have hkeep : ∀ {k e'}, Result s k e' → Result (begin s i g) k e' := fun hr => hr.move (.begin hpc)
  constructor <;>
    simp only [begin, goto, update_apply, mem_append] at * <;>
    grind

theorem Answered.move (ht : Token s) (hl : Logged s) (ha : Answered s) (h : Move s s') :
    Answered s' := by
  have hdone := ht.done_waiting
  have hwaits := ht.hand_waits
  have hkeep : ∀ {i e}, Result s i e → Result s' i e := fun hr => hr.move h
  cases h with
  | finish hpc => exact answered_finish ht ha hpc
  | begin hpc => exact answered_begin hl ha hpc
  | _ =>
    obtain ⟨hcommitting, hreplying, hrunning, hanswer, hreturned⟩ := ha
    constructor <;>
      simp only [join, take, grab, clear, send, goto, update_apply] at * <;>
      grind

end Preserved

section Runs
variable [DecidableEq ι] {s s' : State ι Err} {i : ι}

theorem Reachable.invariants (h : Reachable s) : Token s ∧ Logged s ∧ Answered s ∧ Sent s := by
  induction h with
  | init => exact ⟨token_init, logged_init, answered_init, sent_init⟩
  | step _ hstep ih =>
    have hm := step_move hstep
    obtain ⟨ht, hl, ha, hs⟩ := ih
    exact ⟨ht.move hm, hl.move ht hm, ha.move ht hl hm, hs.move ht hm⟩

theorem Token.holder_moves (ht : Token s) (hi : Holds s i) (e₀ : Err) :
    ∃ a, (∀ k, a ≠ .enqueue k) ∧ (step s a).isSome := by
  obtain hi | hi := hi
  · cases hpc : s.pc i with
    | leading => exact ⟨.grab i, by simp, by simp [step, hpc]⟩
    | grouped g => exact ⟨.commit i, by simp, by simp [step, hpc]⟩
    | committing g => exact ⟨.finish i e₀, by simp, by simp [step, hpc]⟩
    | replying rest e =>
      cases rest with
      | cons q rest =>
        by_cases hq : q = i
        · exact ⟨.reply i, by simp, by simp [step, hpc, if_pos hq]⟩
        · have hd : s.done q = none :=
            ((ht.hand_waits i q (by simp [hpc, Pc.hand])).resolve_left hq).2.1
          exact ⟨.reply i, by simp, by simp [step, hpc, if_neg hq, hd]⟩
      | nil =>
        cases hqueue : s.queue with
        | nil => exact ⟨.handOver i, by simp, by simp [step, hpc, hqueue]⟩
        | cons q rest =>
          -- the head of the queue cannot hold the token, which this caller has
          have hfree : ¬ Holds s q := fun hq => by
            have hqi : q = i := ht.unique q i hq (.inl hi)
            have := ht.queue_pc q (by simp [hqueue])
            grind
          have hd : s.done q = none := by
            have := ht.queue_pc q (by simp [hqueue])
            grind [Holds]
          exact ⟨.handOver i, by simp, by simp [step, hpc, hqueue, hd]⟩
    | _ => simp [hpc, Pc.leads] at hi
  · have hpc := ht.done_waiting i (by simp [hi])
    exact ⟨.receive i, by simp, by simp [step, hpc, hi]⟩

theorem Token.progress (ht : Token s) (hidle : s.pc i ≠ .idle)
    (hret : ∀ e, s.pc i ≠ .returned e) (e₀ : Err) :
    ∃ a, (∀ k, a ≠ .enqueue k) ∧ (step s a).isSome := by
  cases hpc : s.pc i with
  | idle => exact absurd hpc hidle
  | returned e => exact absurd hpc (hret e)
  | waiting =>
    cases hd : s.done i with
    | none =>
      obtain hq | ⟨k, hk⟩ := ht.waits i hpc hd
      · obtain ⟨k, hk⟩ := ht.flushing.mpr (ht.busy (ne_nil_of_mem hq))
        exact ht.holder_moves hk e₀
      · exact ht.holder_moves (.inl (Pc.leads_of_mem_hand hk)) e₀
    | some r =>
      cases r with
      | err e => exact ⟨.receive i, by simp, by simp [step, hpc, hd]⟩
      | lead => exact ht.holder_moves (.inr hd) e₀
  | _ => exact ht.holder_moves (i := i) (.inl (by simp [hpc, Pc.leads])) e₀

def Pc.rank : Pc ι Err → ℕ
  | .idle => 8
  | .waiting => 6
  | .leading => 5
  | .grouped g => 4 + g.length
  | .committing g => 3 + g.length
  | .replying rest _ => 2 + rest.length
  | .returned _ => 0

def work [Fintype ι] (s : State ι Err) : ℕ := ∑ i, (s.pc i).rank + s.queue.length

theorem sum_rank_update [Fintype ι] (f : ι → Pc ι Err) (i : ι) (p : Pc ι Err) :
    ∑ k, (update f i p k).rank + (f i).rank = ∑ k, (f k).rank + p.rank := by
  have hsum := fun b => Finset.sum_update_of_mem (Finset.mem_univ i) (fun k => (f k).rank) b
  have hf := hsum (f i).rank
  simp only [update_eq_self] at hf
  simp only [apply_update (fun _ => Pc.rank), hsum]
  omega

theorem work_lt_of_update [Fintype ι] {p : Pc ι Err} (hpc : s'.pc = update s.pc i p)
    (h : p.rank + s'.queue.length < (s.pc i).rank + s.queue.length) : work s' < work s := by
  have hsum := sum_rank_update s.pc i p
  simp only [work, hpc]
  omega

theorem work_lt_of_move [Fintype ι] (h : Move s s') : work s' < work s := by
  cases h with
  | @join i hpc =>
    have hrank : (if !s.flushing then .leading else .waiting : Pc ι Err).rank ≤ 6 := by
      split <;> simp [Pc.rank]
    refine work_lt_of_update rfl ?_
    simp only [hpc, Pc.rank, join, goto, length_append, length_singleton] at *
    omega
  | _ =>
    refine work_lt_of_update rfl ?_
    simp [*, Pc.rank, take, grab, begin, finish, clear, send, goto]
    try omega

theorem acc_step [Fintype ι] (s : State ι Err) :
    Acc (fun t s => ∃ a : Action ι Err, step s a = some t) s :=
  Subrelation.accessible (fun ⟨_, h⟩ => work_lt_of_move (step_move h)) (InvImage.accessible work
    (Nat.lt_wfRel.wf.apply _))

omit [DecidableEq ι] in
theorem Logged.commit_unique (hl : Logged s) {c d : Commit ι Err} (hc : c ∈ s.commits)
    (hd : d ∈ s.commits) (hic : i ∈ c.group) (hid : i ∈ d.group) : c = d := by
  by_contra hne
  have hdisjoint := (nodup_flatMap.mp hl.nodup).2
  have : Std.Symm (onFun List.Disjoint (@Commit.group ι Err)) :=
    ⟨fun _ _ h => h.symm⟩
  exact hdisjoint.forall hc hd hne hic hid

def Pending (s : State ι Err) (i : ι) : Prop :=
  i ∈ s.queue ∨ ∃ k g, s.pc k = .grouped g ∧ i ∈ g

section
omit [DecidableEq ι]

theorem Result.mem_committed {e : Err} (h : Result s i e) : i ∈ committed s := by
  obtain ⟨c, hc, hi, -⟩ := h
  exact mem_flatMap.mpr ⟨c, hc, hi⟩

theorem Answered.mem_committed_of_committing (ha : Answered s) {k : ι} {g : List ι}
    (hpc : s.pc k = .committing g) (hi : i ∈ g) : i ∈ committed s :=
  mem_flatMap.mpr ⟨_, (ha.committing k g hpc).1, hi⟩

theorem Logged.not_mem_of_pending (hl : Logged s) (h : Pending s i) : i ∉ committed s := by
  obtain hq | ⟨k, g, hpc, hi⟩ := h
  · exact hl.queue i hq
  · exact (hl.grouped k g hpc).2 i hi

theorem pending_or_mem_committed (ht : Token s) (hl : Logged s) (ha : Answered s)
    (hidle : s.pc i ≠ .idle) : Pending s i ∨ i ∈ committed s := by
  have hhand : ∀ k, i ∈ (s.pc k).hand → Pending s i ∨ i ∈ committed s := by
    intro k hk
    cases hpc : s.pc k with
    | grouped g => exact .inl (.inr ⟨k, g, hpc, by simpa [hpc, Pc.hand] using hk⟩)
    | committing g =>
      exact .inr (ha.mem_committed_of_committing hpc (by simpa [hpc, Pc.hand] using hk))
    | replying rest e =>
      exact .inr ((ha.replying k rest e hpc).2 i (by simpa [hpc, Pc.hand] using hk)).mem_committed
    | _ => simp [hpc, Pc.hand] at hk
  cases hpc : s.pc i with
  | idle => exact absurd hpc hidle
  | waiting =>
    cases hd : s.done i with
    | none =>
      obtain hq | ⟨k, hk⟩ := ht.waits i hpc hd
      · exact .inl (.inl hq)
      · exact hhand k hk
    | some r =>
      cases r with
      | err e => exact .inr (ha.answer i e hd).mem_committed
      | lead => exact .inl (.inl (ht.called_queue i hd))
  | leading => exact .inl (.inl (ht.leading_queue i hpc))
  | grouped g => exact .inl (.inr ⟨i, g, hpc, (hl.grouped i g hpc).1⟩)
  | committing g => exact .inr (ha.mem_committed_of_committing hpc (ha.committing i g hpc).2)
  | replying rest e => exact .inr (ha.replying i rest e hpc).1.mem_committed
  | returned e => exact .inr (ha.returned i e hpc).mem_committed

end

theorem count_committed (ht : Token s) (hl : Logged s) (ha : Answered s)
    (hidle : s.pc i ≠ .idle) : (Pending s i ∧ (committed s).count i = 0) ∨
      (¬ Pending s i ∧ (committed s).count i = 1) := by
  by_cases hp : Pending s i
  · exact .inl ⟨hp, count_eq_zero.mpr (hl.not_mem_of_pending hp)⟩
  · have hc := (pending_or_mem_committed ht hl ha hidle).resolve_left hp
    exact .inr ⟨hp, count_eq_one_of_mem hl.nodup hc⟩

omit [DecidableEq ι] in
theorem Sent.eq_zero (hs : Sent s) (hd : s.direct i = true) : s.sent i = 0 := by
  by_cases hidle : s.pc i = .idle
  · exact hs.idle i hidle
  · have hwait : s.pc i ≠ .waiting := fun hw => by simp [(hs.waiting i hw).1] at hd
    simpa [hd] using hs.past i hidle hwait

omit [DecidableEq ι] in
theorem Sent.le_one (hs : Sent s) (i : ι) : s.sent i ≤ 1 := by
  by_cases hidle : s.pc i = .idle
  · simp [hs.idle i hidle]
  by_cases hwait : s.pc i = .waiting
  · by_cases hd : s.done i = none
    · simp [(hs.waiting i hwait).2.1 hd]
    · simp [(hs.waiting i hwait).2.2 hd]
  · rw [hs.past i hidle hwait]
    split <;> simp

/-- What holds of every state that any interleaving of the callers' steps can reach. A caller that
leads at once is sent nothing; every other is sent one value by the time it returns. The last two
parts say that nobody is stranded: a step is possible while a caller has not returned, and no run
goes on for ever. -/
theorem group_commits_exactly_once [Fintype ι] [Inhabited Err] (h : Reachable s) :
    (∀ i j gi gj, s.pc i = .committing gi → s.pc j = .committing gj → i = j) ∧
    (∀ i, s.pc i ≠ .idle → (Pending s i ∧ (committed s).count i = 0) ∨
      (¬ Pending s i ∧ (committed s).count i = 1)) ∧
    (∀ i e, s.pc i = .returned e → ∃ c ∈ s.commits, i ∈ c.group ∧ c.result = some e ∧
      ∀ d ∈ s.commits, i ∈ d.group → d = c) ∧
    (∀ i, s.direct i = true → s.sent i = 0) ∧
    (∀ i, s.direct i = false → s.sent i ≤ 1 ∧ ∀ e, s.pc i = .returned e → s.sent i = 1) ∧
    (s.queue ≠ [] → s.flushing = true ∧ ∃! i, Holds s i) ∧
    (∀ i, s.pc i ≠ .idle → (∀ e, s.pc i ≠ .returned e) →
      ∃ a, (∀ k, a ≠ .enqueue k) ∧ (step s a).isSome) ∧
    Acc (fun t s => ∃ a, step s a = some t) s := by
  obtain ⟨ht, hl, ha, hs⟩ := h.invariants
  refine ⟨?_, fun i hi => count_committed ht hl ha hi, ?_, fun i hi => hs.eq_zero hi, ?_, ?_,
    fun i hidle hret => ht.progress hidle hret default, acc_step s⟩
  · intro i j gi gj hi hj
    exact ht.unique i j (.inl (by simp [hi, Pc.leads])) (.inl (by simp [hj, Pc.leads]))
  · intro i e hi
    obtain ⟨c, hc, hic, he⟩ := ha.returned i e hi
    exact ⟨c, hc, hic, he, fun d hd hid => hl.commit_unique hd hc hid hic⟩
  · intro i hi
    refine ⟨hs.le_one i, fun e he => ?_⟩
    simpa [hi] using hs.past i (by simp [he]) (by simp [he])
  · intro hq
    have hflush := ht.busy hq
    obtain ⟨i, hi⟩ := ht.flushing.mpr hflush
    exact ⟨hflush, i, hi, fun j hj => ht.unique j i hj hi⟩

theorem two_callers_have_a_leader : ∃ s : State (Fin 2) Bool, Reachable s ∧ s.queue = [0, 1] ∧
    ∃! i, Holds s i := by
  have h : Reachable (join (join init 0) 1 : State (Fin 2) Bool) :=
    .step (a := .enqueue 1) (.step (a := .enqueue 0) .init rfl) rfl
  exact ⟨_, h, rfl, ((group_commits_exactly_once h).2.2.2.2.2.1 (by decide)).2⟩

theorem direct_leader_sent_nothing : ∃ s : State (Fin 1) Bool, Reachable s ∧
    s.pc 0 = .returned false ∧ s.sent 0 = 0 :=
  ⟨_, .step (a := .handOver 0) (.step (a := .reply 0) (.step (a := .finish 0 false)
    (.step (a := .commit 0) (.step (a := .grab 0) (.step (a := .enqueue 0) .init rfl) rfl) rfl) rfl)
    rfl) rfl, rfl, rfl⟩

end Runs

end NuclaDB.GroupCommit
