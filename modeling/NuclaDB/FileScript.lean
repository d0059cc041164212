import NuclaDB.LittleEndian

/-!
# Scripts of file operations

An operation of a script may fail, with or without its effect, and a run can stop anywhere.
`Safe` asks for an invariant wherever it may stop, and for a postcondition.
-/

namespace NuclaDB.FileScript

open LittleEndian Function

variable {P N α β : Type*}

abbrev Files (N : Type*) := N → Option Bytes

inductive Op (N : Type*)
  | stat (n : N)
  | read (n : N)
  | create (n : N)
  | write (n : N) (b : Bytes)
  | sync (n : N)
  | close (n : N)
  | rename (a b : N)
  | remove (n : N)
  | syncDir
deriving DecidableEq

inductive Reply
  | ok (b : Bytes)
  | notExist
  | failed

def Reply.isOk : Reply → Bool
  | .ok _ => true
  | _ => false

/-- An operation fails before it has an effect or after it; of a write, `k` bytes may get done. -/
inductive Fault
  | none
  | before
  | after (k : ℕ)
deriving DecidableEq

namespace Op
variable [DecidableEq N] (d : Files N)

def effect : Op N → Files N
  | .create n => update d n (some [])
  | .write n b => update d n (some ((d n).getD [] ++ b))
  | .rename a b =>
    match d a with
    | none => d
    | some c => update (update d a none) b (some c)
  | .remove n => update d n none
  | _ => d

def found (n : N) : Reply :=
  match d n with
  | none => .notExist
  | some b => .ok b

def reply : Op N → Reply
  | .stat n => found d n
  | .read n => found d n
  | .rename a _ => found d a
  | .remove n => found d n
  | _ => .ok []

def cut (k : ℕ) : Op N → Op N
  | .write n b => .write n (b.take k)
  | o => o

def perform (o : Op N) : Fault → Reply × Files N
  | .none => (o.reply d, o.effect d)
  | .before => (.failed, d)
  | .after k => (.failed, (o.cut k).effect d)

end Op

/-- The label of an operation tells where in the program it stands. -/
inductive Script (P N α : Type*)
  | done (a : α)
  | op (p : P) (o : Op N) (k : Reply → Script P N α)

structure Event (P N : Type*) where
  label : P
  op : Op N
  fault : Fault
deriving DecidableEq

namespace Script

def bind : Script P N α → (α → Script P N β) → Script P N β
  | .done a, f => f a
  | .op p o k, f => .op p o fun r => (k r).bind f

def must (p : P) (o : Op N) : Script P N Bool := .op p o fun r => .done r.isOk

def try_ (p : P) (o : Op N) : Script P N Bool := .op p o fun _ => .done true

def and (s t : Script P N Bool) : Script P N Bool := s.bind fun ok => if ok then t else .done false

def all : List (Script P N Bool) → Script P N Bool
  | [] => .done true
  | s :: ss => s.and (all ss)

variable [DecidableEq N]

def run : Script P N α → Files N → List Fault → α × Files N
  | .done a, d, _ => (a, d)
  | .op _ o k, d, fs => (k (o.perform d (fs.headD .none)).1).run (o.perform d (fs.headD .none)).2 fs.tail

def log : Script P N α → Files N → List Fault → List (Event P N)
  | .done _, _, _ => []
  | .op p o k, d, fs => ⟨p, o, fs.headD .none⟩ ::
      (k (o.perform d (fs.headD .none)).1).log (o.perform d (fs.headD .none)).2 fs.tail

def crashed : Script P N α → Files N → List Fault → ℕ → Files N
  | .op _ o k, d, fs, n + 1 =>
    (k (o.perform d (fs.headD .none)).1).crashed (o.perform d (fs.headD .none)).2 fs.tail n
  | _, d, _, _ => d

/-- `I` holds wherever the script may stop and `Q` at its end, whatever allowed faults happen. -/
def Safe (allow : P → Op N → Fault → Prop) (I : Files N → Prop) (Q : α → Files N → Prop) :
    Script P N α → Files N → Prop
  | .done a, d => I d ∧ Q a d
  | .op p o k, d => I d ∧ ∀ f, allow p o f → (k (o.perform d f).1).Safe allow I Q (o.perform d f).2

end Script

section Rules
variable [DecidableEq N] {allow : P → Op N → Fault → Prop} {I J : Files N → Prop}
  {Q : α → Files N → Prop} {R : β → Files N → Prop} {s : Script P N α} {d : Files N}

namespace Script

@[simp] theorem safe_done {a : α} : (done a : Script P N α).Safe allow I Q d ↔ I d ∧ Q a d := Iff.rfl

theorem safe_quiet_op {p : P} (hp : ∀ o f, allow p o f ↔ f = .none) {o : Op N}
    {k : Reply → Script P N α} :
    (Script.op p o k).Safe allow I Q d ↔ I d ∧ (k (o.reply d)).Safe allow I Q (o.effect d) := by
  simp [Script.Safe, hp, Op.perform]

theorem Safe.mono (h : s.Safe allow I Q d) (hI : ∀ d, I d → J d)
    {Q' : α → Files N → Prop} (hQ : ∀ a d, Q a d → Q' a d) : s.Safe allow J Q' d := by
  induction s generalizing d with
  | done a => exact ⟨hI d h.1, hQ a d h.2⟩
  | op p o k ih => exact ⟨hI d h.1, fun f hf => ih _ (h.2 f hf)⟩

theorem Safe.strengthen (h : s.Safe allow I Q d) : s.Safe allow I (fun a d => I d ∧ Q a d) d := by
  induction s generalizing d with
  | done a => exact ⟨h.1, h⟩
  | op p o k ih => exact ⟨h.1, fun f hf => ih _ (h.2 f hf)⟩

theorem Safe.bind {f : α → Script P N β} (h : s.Safe allow I Q d)
    (hf : ∀ a d, I d → Q a d → (f a).Safe allow I R d) : (s.bind f).Safe allow I R d := by
  induction s generalizing d with
  | done a => exact hf a d h.1 h.2
  | op p o k ih => exact ⟨h.1, fun fault hfault => ih _ (h.2 fault hfault)⟩

theorem Safe.and {s t : Script P N Bool} {Q R : Bool → Files N → Prop} (h : s.Safe allow I Q d)
    (ht : ∀ d, I d → Q true d → t.Safe allow I R d) (hfail : ∀ d, I d → Q false d → R false d) :
    (s.and t).Safe allow I R d := by
  apply h.bind
  intro ok d hI hQ
  cases ok with
  | true => exact ht d hI hQ
  | false => exact ⟨hI, hfail d hI hQ⟩

def Ends (K F : Files N → Prop) (ok : Bool) (d : Files N) : Prop :=
  if ok then K d else F d

theorem Safe.andEnds {s t : Script P N Bool} {K K' F : Files N → Prop}
    (h : s.Safe allow I (Ends K F) d) (ht : ∀ d, I d → K d → t.Safe allow I (Ends K' F) d) :
    (s.and t).Safe allow I (Ends K' F) d :=
  h.and ht fun _ _ hF => hF

theorem Safe.loop {ι : Type*} {f : ι → Script P N Bool} {K : List ι → Files N → Prop}
    {F : Files N → Prop} {is : List ι}
    (hstep : ∀ ds i us, is = ds ++ i :: us → ∀ d, I d → K ds d →
      (f i).Safe allow I (Ends (K (ds ++ [i])) F) d)
    (hI : I d) (h : K [] d) : (Script.all (is.map f)).Safe allow I (Ends (K is) F) d := by
  suffices hfrom : ∀ us ds, is = ds ++ us → ∀ d, I d → K ds d →
      (Script.all (us.map f)).Safe allow I (Ends (K is) F) d from hfrom is [] rfl d hI h
  intro us
  induction us with
  | nil =>
    intro ds hds d hI hK
    rw [List.append_nil] at hds
    exact ⟨hI, hds ▸ hK⟩
  | cons i us ih =>
    intro ds hds d hI hK
    apply (hstep ds i us hds d hI hK).andEnds
    exact fun d hI hK => ih (ds ++ [i]) (by simp [hds]) d hI hK

theorem Safe.of_must {p : P} {o : Op N} {K F : Files N → Prop} (hI : I d)
    (hok : allow p o .none → I (o.effect d) ∧ Ends K F (o.reply d).isOk (o.effect d))
    (hbefore : allow p o .before → F d)
    (hafter : ∀ k, allow p o (.after k) → I ((o.cut k).effect d) ∧ F ((o.cut k).effect d)) :
    (must p o).Safe allow I (Ends K F) d := by
  refine ⟨hI, fun f hf => ?_⟩
  cases f with
  | none => exact hok hf
  | before => exact ⟨hI, hbefore hf⟩
  | after k => exact hafter k hf

section WriteFile
variable {n : N}

def Only (n : N) (d d' : Files N) : Prop := ∃ v, d' = update d n v

theorem only_refl (n : N) (d : Files N) : Only n d d := ⟨d n, by simp⟩

theorem Only.update {d d' : Files N} (h : Only n d d') (v : Option Bytes) :
    Only n d (update d' n v) := by
  obtain ⟨w, rfl⟩ := h
  exact ⟨v, by simp⟩

theorem Only.must_safe {p : P} {o : Op N} {d' : Files N} {b : Bytes} (h : Only n d d')
    (hcut : ∀ k, Only n d ((o.cut k).effect d')) (hok : (o.reply d').isOk = true)
    (heffect : o.effect d' = Function.update d n (some b)) :
    (must p o).Safe allow (Only n d)
      (Ends (fun d' => d' = Function.update d n (some b)) (Only n d)) d' := by
  apply Safe.of_must h
  · intro _
    rw [heffect, hok]
    exact ⟨⟨_, rfl⟩, rfl⟩
  · exact fun _ => h
  · exact fun k _ => ⟨hcut k, hcut k⟩

theorem writeAll_safe (allow : P → Op N → Fault → Prop) (p : P) (n : N) (b : Bytes) (d : Files N) :
    (Script.all [must p (.create n), must p (.write n b), must p (.sync n), must p (.close n)]).Safe
      allow (Only n d) (Ends (fun d' => d' = Function.update d n (some b)) (Only n d)) d := by
  have hupdate : ∀ v, Only n d (Function.update d n v) := fun v => ⟨v, rfl⟩
  have hrefl := only_refl n d
  apply (hrefl.must_safe (o := .create n) (fun _ => hupdate _) rfl rfl).andEnds
  rintro d' h rfl
  apply (h.must_safe (o := .write n b) (b := b) (fun _ => h.update _) rfl (by simp [Op.effect])).andEnds
  rintro d' h rfl
  apply (h.must_safe (o := .sync n) (fun _ => h) rfl rfl).andEnds
  rintro d' h rfl
  apply (h.must_safe (o := .close n) (fun _ => h) rfl rfl).andEnds
  rintro d' h rfl
  exact ⟨h, rfl⟩

end WriteFile

theorem Safe.run (h : s.Safe allow I Q d) {fs : List Fault}
    (hfs : ∀ ev ∈ s.log d fs, allow ev.label ev.op ev.fault) :
    I (s.run d fs).2 ∧ Q (s.run d fs).1 (s.run d fs).2 := by
  induction s generalizing d fs with
  | done a => exact h
  | op p o k ih =>
    obtain ⟨hev, hrest⟩ := List.forall_mem_cons.mp hfs
    exact ih _ (h.2 _ hev) hrest

theorem Safe.crashed (h : s.Safe allow I Q d) {fs : List Fault}
    (hfs : ∀ ev ∈ s.log d fs, allow ev.label ev.op ev.fault) (n : ℕ) : I (s.crashed d fs n) := by
  induction s generalizing d fs n with
  | done a => exact h.1
  | op p o k ih =>
    cases n with
    | zero => exact h.1
    | succ n =>
      obtain ⟨hev, hrest⟩ := List.forall_mem_cons.mp hfs
      exact ih _ (h.2 _ hev) hrest n

theorem log_nil (s : Script P N α) (d : Files N) : ∀ ev ∈ s.log d [], ev.fault = .none := by
  induction s generalizing d with
  | done a => simp [log]
  | op p o k ih => exact List.forall_mem_cons.mpr ⟨rfl, ih _ _⟩

theorem log_bind (s : Script P N α) (f : α → Script P N β) (d : Files N) :
    (s.bind f).log d [] = s.log d [] ++ (f (s.run d []).1).log (s.run d []).2 [] := by
  induction s generalizing d with
  | done a => rfl
  | op p o k ih => exact congrArg (_ :: ·) (ih _ _)

theorem crashed_bind_of_le {n : ℕ} (f : α → Script P N β) (hn : n ≤ (s.log d []).length) :
    (s.bind f).crashed d [] n = s.crashed d [] n := by
  induction s generalizing d n with
  | done a =>
    obtain rfl : n = 0 := Nat.le_zero.mp hn
    simp only [Script.bind]
    cases f a <;> rfl
  | op p o k ih =>
    cases n with
    | zero => rfl
    | succ n => exact ih _ (Nat.le_of_succ_le_succ hn)

theorem crashed_bind_add (s : Script P N α) (f : α → Script P N β) (d : Files N) (m : ℕ) :
    (s.bind f).crashed d [] ((s.log d []).length + m) =
      (f (s.run d []).1).crashed (s.run d []).2 [] m := by
  induction s generalizing d with
  | done a => simp [Script.bind, log, Script.run]
  | op p o k ih =>
    rw [log, List.length_cons, Nat.succ_add]
    exact ih _ _

end Script

end Rules

end NuclaDB.FileScript
