import NuclaDB.ApiServer

/-!
# The list handler of the REST gateway

The gateway parses `page_size` as an integer of 64 bits and hands it to the server as one
of 32 bits.
-/

namespace NuclaDB.Api.Gateway

open Strconv CallProgram

variable {D : Type}

/-- An error page, with a text of the gateway or the `Error()` of a status. -/
structure HttpError where
  code : ℕ
  cause : String ⊕ Status
deriving DecidableEq

def statusCodeFor (st : Status) : ℕ :=
  match st.code with
  | .invalidArgument => 400
  | .notFound => 404
  | .alreadyExists => 409
  | .unauthenticated => 401
  | .permissionDenied => 403
  | .resourceExhausted => 429
  | _ => 500

def writeResult {α : Type} : Handler D α → CallProgram HttpError (Answer D) α
  | .done r => .done r
  | .fail st => .fail ⟨statusCodeFor st, .inr st⟩
  | .call c k => .call c fun r => writeResult (k r)

def list (srv : Server) (given tenantID pageToken pageSize : String) :
    CallProgram HttpError (Answer D) (Response D) :=
  match atoi (if pageSize = "" then "0" else pageSize) with
  | none => .fail ⟨400, .inl "page_size must be an integer"⟩
  | some size => writeResult (srv.list given tenantID pageToken size.toInt32.toInt)

abbrev Served (n : ℤ) : Prop := 0 ≤ n ∧ n ≤ maxPageSize

/-- A page size of 0 to 1000 is the one that the store is asked for, and any other ends in an error. -/
structure KeepsBound (D : Type) (srv : Server) (given tenantID pageToken pageSize : String) (n : ℤ) : Prop where
  refused : ¬Served n → ∃ e, list (D := D) srv given tenantID pageToken pageSize = .fail e
  asked : Served n → ∀ start, srv.allow given tenantID false = .ok () → Server.pageStart pageToken = .ok start →
    ∃ k, list (D := D) srv given tenantID pageToken pageSize =
      .call (.list tenantID start (if n = 0 then 100 else n.toNat)) k
  asks : Served n → (list (D := D) srv given tenantID pageToken pageSize).Makes fun c =>
    ∃ start, c = .list tenantID start (if n = 0 then 100 else n.toNat)

section List
variable {srv : Server} {given tenantID pageToken pageSize : String} {m : ℤ} {n : Int64}

theorem list_of_atoi (hn : atoi pageSize = some n) : list (D := D) srv given tenantID pageToken pageSize =
    writeResult (srv.list given tenantID pageToken n.toInt32.toInt) := by
  have hne : pageSize ≠ "" := by
    rintro rfl
    cases hn
  rw [list, if_neg hne, hn]

theorem makes_writeResult {α : Type} {P : StoreCall → Prop} {p : Handler D α} (h : p.Makes P) :
    (writeResult p).Makes P := by
  induction p with
  | done r => exact trivial
  | fail st => exact trivial
  | call c k ih => exact ⟨h.1, fun r => ih r (h.2 r)⟩

theorem server_list_refused (hm : ¬Served m) :
    ∃ e, writeResult (srv.list given tenantID pageToken m : Handler D _) = .fail e := by
  have hbad : (m < 0 || maxPageSize < m) = true := by
    simp only [Served, not_and_or, not_le] at hm
    simpa using hm
  rw [Server.list]
  cases srv.allow given tenantID false with
  | error st => exact ⟨_, rfl⟩
  | ok _ =>
    rw [ofExcept_ok_bind, if_pos hbad]
    exact ⟨_, rfl⟩

theorem server_list_asked (hm : Served m) {start : UInt64} (hallow : srv.allow given tenantID false = .ok ())
    (hstart : Server.pageStart pageToken = .ok start) :
    ∃ k, writeResult (srv.list given tenantID pageToken m : Handler D _) =
      .call (.list tenantID start (if m = 0 then 100 else m.toNat)) k := by
  have hgood : ¬(m < 0 || maxPageSize < m) = true := by simpa using hm
  rw [Server.list, hallow, ofExcept_ok_bind, if_neg hgood, hstart]
  exact ⟨_, rfl⟩

theorem server_list_asks (m : ℤ) : (srv.list given tenantID pageToken m : Handler D _).Makes fun c =>
    ∃ start, c = .list tenantID start (if m = 0 then 100 else m.toNat) := by
  rw [Server.list, makes_ofExcept_bind]
  intro _ _
  by_cases hbad : (m < 0 || maxPageSize < m) = true
  · rw [if_pos hbad]
    exact trivial
  · rw [if_neg hbad, makes_ofExcept_bind]
    exact fun start _ => ⟨⟨start, rfl⟩, fun r => makes_ofExcept_bind.mpr fun _ _ => trivial⟩

theorem keepsBound_of_eq (hn : atoi pageSize = some n) (hm : n.toInt32.toInt = n.toInt) :
    KeepsBound D srv given tenantID pageToken pageSize n.toInt := by
  rw [← hm]
  constructor
  · rw [list_of_atoi hn]
    exact server_list_refused
  · intro hserved start hallow hstart
    rw [list_of_atoi hn]
    exact server_list_asked hserved hallow hstart
  · intro _
    rw [list_of_atoi hn]
    exact makes_writeResult (server_list_asks _)

end List

theorem toInt32_of_served {n : Int64} (h : Served n.toInt) : n.toInt32.toInt = n.toInt := by
  have hmax : maxPageSize = 1000 := rfl
  obtain ⟨hlow, hhigh⟩ := h
  rw [Int64.toInt_toInt32]
  exact Int.bmod_eq_of_le (by omega) (by omega)

/-- The bound is kept for the numbers that fit 32 bits, and for those of which the
narrowing leaves a number that the server refuses. -/
theorem list_keeps_bound_iff {pageSize : String} {n : Int64} (hn : atoi pageSize = some n) :
    (∀ srv given tenantID pageToken, KeepsBound D srv given tenantID pageToken pageSize n.toInt) ↔
      n.toInt32.toInt = n.toInt ∨ ¬Served n.toInt32.toInt := by
  constructor
  · intro hkeeps
    by_contra hcond
    obtain ⟨hne, hserved⟩ := not_or.mp hcond
    have hserved := not_not.mp hserved
    obtain ⟨e, he⟩ := (hkeeps Server.new "" "" "").refused fun h => hne (toInt32_of_served h)
    have hasked : ∃ k, writeResult (Server.new.list "" "" "" n.toInt32.toInt : Handler D _) = .call _ k :=
      server_list_asked hserved rfl rfl
    obtain ⟨k, hk⟩ := hasked
    rw [list_of_atoi hn, hk] at he
    cases he
  · rintro (hm | hm) srv given tenantID pageToken
    · exact keepsBound_of_eq hn hm
    · refine ⟨fun _ => ?_, fun h => ?_, fun h => ?_⟩
      · rw [list_of_atoi hn]
        exact server_list_refused hm
      · exact absurd (toInt32_of_served h ▸ h) hm
      · exact absurd (toInt32_of_served h ▸ h) hm

theorem list_keeps_bound_of_1001 : atoi "1001" = some 1001 ∧ ¬Served 1001 ∧
    ∀ srv given tenantID pageToken, KeepsBound ℕ srv given tenantID pageToken "1001" 1001 :=
  have hn : atoi "1001" = some 1001 := by decide
  ⟨hn, by decide, (list_keeps_bound_iff hn).mpr (.inl (by decide))⟩

/-- The first number above 32 bits with the low bits of 5 asks the store for five ids. -/
theorem list_serves_beyond_bound : atoi "4294967301" = some 4294967301 ∧
    (∃ k, list (D := ℕ) Server.new "" "" "" "4294967301" = .call (.list "" 0 5) k) ∧
    ¬KeepsBound ℕ Server.new "" "" "" "4294967301" 4294967301 := by
  have hn : atoi "4294967301" = some 4294967301 := by decide
  have hserved : Served (4294967301 : Int64).toInt32.toInt := by decide
  have hlist : ∃ k, list (D := ℕ) Server.new "" "" "" "4294967301" = .call (.list "" 0 5) k := by
    rw [list_of_atoi hn]
    exact server_list_asked hserved rfl rfl
  refine ⟨hn, hlist, fun h => ?_⟩
  obtain ⟨e, he⟩ := h.refused (by decide)
  obtain ⟨k, hk⟩ := hlist
  rw [hk] at he
  cases he

end NuclaDB.Api.Gateway
