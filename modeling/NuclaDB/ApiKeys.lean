import NuclaDB.StoreRoot

/-!
# API keys

Each key is allowed a list of tenants, with `"*"` for all of them, and may be an
admin key. `Keys.Allow` compares the key that a request presents with every key.
-/

namespace NuclaDB.Auth

open StoreRoot List

structure Key where
  key : String
  tenants : List String
  admin : Bool
deriving DecidableEq

structure Keys where
  keys : List Key
  long : ∀ k ∈ keys, 16 ≤ k.key.utf8ByteSize
  distinct : (keys.map (·.key)).Nodup

inductive KeysError
  | tooShort (entry : ℕ)
  | duplicate (entry : ℕ)
deriving DecidableEq

def check (seen : List String) (i : ℕ) : List Key → Except KeysError Unit
  | [] => .ok ()
  | k :: ks =>
    if k.key.utf8ByteSize < 16 then .error (.tooShort i)
    else if k.key ∈ seen then .error (.duplicate i)
    else check (k.key :: seen) (i + 1) ks

theorem check_ok {seen : List String} {i : ℕ} {ks : List Key} (h : check seen i ks = .ok ()) :
    (∀ k ∈ ks, 16 ≤ k.key.utf8ByteSize) ∧ (ks.map (·.key)).Nodup ∧ ∀ k ∈ ks, k.key ∉ seen := by
  induction ks generalizing seen i with
  | nil => simp
  | cons k ks ih =>
    simp only [check] at h
    split_ifs at h with hlong hseen
    obtain ⟨hlongs, hnodup, hfresh⟩ := ih h
    refine ⟨?_, ?_, ?_⟩
    · exact forall_mem_cons.mpr ⟨Nat.le_of_not_lt hlong, hlongs⟩
    · refine nodup_cons.mpr ⟨?_, hnodup⟩
      intro hmem
      obtain ⟨k', hk', heq⟩ := mem_map.mp hmem
      exact hfresh k' hk' (heq ▸ mem_cons_self)
    · exact forall_mem_cons.mpr
        ⟨hseen, fun k' hk' hold => hfresh k' hk' (mem_cons_of_mem _ hold)⟩

def new (keys : List Key) : Except KeysError Keys :=
  match h : check [] 0 keys with
  | .error e => .error e
  | .ok () => .ok ⟨keys, (check_ok h).1, (check_ok h).2.1⟩

theorem keys_of_new {keys : List Key} {ks : Keys} (h : new keys = .ok ks) : ks.keys = keys := by
  unfold new at h
  split at h
  · cases h
  · cases h
    rfl

def Covers (keys : List Key) (given tenant : String) : Prop :=
  ∃ k ∈ keys, k.key = given ∧ (tenant ∈ k.tenants ∨ "*" ∈ k.tenants)

def IsAdmin (keys : List Key) (given : String) : Prop := ∃ k ∈ keys, k.key = given ∧ k.admin = true

inductive AuthError
  | noKey
  | forbidden
deriving DecidableEq

def AuthError.text : AuthError → String
  | noKey => "auth: missing or unknown API key"
  | forbidden => "auth: API key not allowed here"

def tenantOf (id : String) : String := if id = "" then defaultTenant else id

namespace Keys
variable {given tenant : String} {ks : Keys}

/-- The loop of `Allow`, which goes on after the key is found. -/
def find (ks : Keys) (given : String) : Option Key :=
  ks.keys.foldl (fun found k => if k.key = given then some k else found) none

def allow (ks : Keys) (given tenant : String) (admin : Bool) : Except AuthError Unit :=
  match given, ks.find given with
  | "", _ => .error .noKey
  | _, none => .error .noKey
  | _, some found =>
    if admin && !found.admin then .error .forbidden
    else if !admin && !found.tenants.contains "*" && !found.tenants.contains (tenantOf tenant) then
      .error .forbidden
    else .ok ()

theorem find_mem {k : Key} (h : ks.find given = some k) : k ∈ ks.keys ∧ k.key = given := by
  -- The invariant of the loop: what has been found so far is a key that matches.
  refine foldlRecOn (motive := fun found => ∀ k, found = some k → k ∈ ks.keys ∧ k.key = given)
    ks.keys _ (by simp) ?_ k h
  intro found hfound x hx k hk
  split_ifs at hk with hmatch
  · cases hk
    exact ⟨hx, hmatch⟩
  · exact hfound k hk

theorem allow_found {admin : Bool} (h : ks.allow given tenant admin = .ok ()) :
    ∃ k ∈ ks.keys, k.key = given ∧ (admin = true → k.admin = true) ∧
      (admin = false → "*" ∈ k.tenants ∨ tenantOf tenant ∈ k.tenants) := by
  unfold allow at h
  split at h
  · cases h
  · cases h
  · next found _ hfound =>
    obtain ⟨hmem, hkey⟩ := find_mem hfound
    refine ⟨found, hmem, hkey, ?_⟩
    cases admin with
    | true => simpa using h
    | false =>
      simp only [Bool.false_and, Bool.not_false, Bool.true_and, Bool.false_eq_true, if_false,
        ite_eq_right_iff, Bool.and_eq_true, Bool.not_eq_true', reduceCtorEq, imp_false, not_and,
        Bool.not_eq_false, contains_iff_mem] at h
      refine ⟨by simp, fun _ => ?_⟩
      by_cases hall : "*" ∈ found.tenants
      · exact .inl hall
      · exact .inr (h (by simpa using hall))

theorem covers_of_allow
    (h : ks.allow given tenant false = .ok ()) : Covers ks.keys given (tenantOf tenant) := by
  obtain ⟨k, hmem, hkey, -, htenant⟩ := allow_found h
  exact ⟨k, hmem, hkey, (htenant rfl).symm⟩

theorem isAdmin_of_allow
    (h : ks.allow given tenant true = .ok ()) : IsAdmin ks.keys given := by
  obtain ⟨k, hmem, hkey, hadmin, -⟩ := allow_found h
  exact ⟨k, hmem, hkey, hadmin rfl⟩

end Keys

end NuclaDB.Auth
