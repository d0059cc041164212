import NuclaDB.BatchOrder

/-!
# Paging through a tenant's ids

A client follows `next_page_token`, which is one more than the last id of the page before.
Between two pages anything may happen to the store.
-/

namespace NuclaDB.StoreCalls

open LittleEndian Hnsw Auth StoreRoot Api Unwinding CallProgram Strconv EventRun List Except

structure PageOf (ids : List UInt64) (start : UInt64) (limit : ℕ) (p : Page) : Prop where
  ascending : p.ids.Pairwise (· < ·)
  mem : ∀ id ∈ p.ids, id ∈ ids ∧ start ≤ id
  rest : p.more = false → ∀ id ∈ ids, start ≤ id → id ∈ p.ids
  full : p.more = true → p.ids.length = limit
  upTo : p.more = true → ∀ last, p.ids.getLast? = some last →
    (last + 1).toNat = last.toNat + 1 ∧ ∀ id ∈ ids, start ≤ id → id ≤ last → id ∈ p.ids

theorem mem_dropWhile_lt {l : List UInt64} (hl : l.Pairwise (· ≤ ·)) {start id : UInt64} :
    id ∈ l.dropWhile (· < start) ↔ id ∈ l ∧ start ≤ id := by
  induction l with
  | nil => simp
  | cons a l ih =>
    obtain ⟨ha, hl⟩ := pairwise_cons.mp hl
    by_cases hlt : a < start
    · rw [dropWhile_cons_of_pos (by simpa using hlt), ih hl, mem_cons]
      constructor
      · exact fun h => ⟨.inr h.1, h.2⟩
      · rintro ⟨rfl | hmem, hle⟩
        · exact absurd hlt (UInt64.not_lt.mpr hle)
        · exact ⟨hmem, hle⟩
    · rw [dropWhile_cons_of_neg (by simpa using hlt)]
      refine ⟨fun h => ⟨h, ?_⟩, And.left⟩
      rcases mem_cons.mp h with rfl | hmem
      · exact UInt64.not_lt.mp hlt
      · exact UInt64.le_trans (UInt64.not_lt.mp hlt) (ha id hmem)

theorem toNat_add_one_of_lt {a b : UInt64} (h : a < b) : (a + 1).toNat = a.toNat + 1 := by
  have hlt := UInt64.lt_iff_toNat_lt.mp h
  have hb := b.toNat_lt
  rw [UInt64.toNat_add, UInt64.toNat_one]
  exact Nat.mod_eq_of_lt (by omega)

theorem page_spec {D : Type} {e : Engine D} (hnodup : e.graph.ids.Nodup) (start : UInt64) (limit : ℕ) :
    PageOf e.graph.ids start limit (page e start limit) := by
  have hsorted : (e.graph.ids.mergeSort fun a b => decide (a ≤ b)).Pairwise (· ≤ ·) := by
    refine (pairwise_mergeSort (fun a b c hab hbc => ?_) (fun a b => ?_) e.graph.ids).imp fun h => ?_
    · simpa using UInt64.le_trans (by simpa using hab) (by simpa using hbc)
    · simpa using UInt64.le_total a b
    · simpa using h
  have hmem : ∀ id, id ∈ (e.graph.ids.mergeSort fun a b => decide (a ≤ b)).dropWhile (· < start) ↔
      id ∈ e.graph.ids ∧ start ≤ id := fun id => by
    rw [mem_dropWhile_lt hsorted, mem_mergeSort]
  have hascending : ((e.graph.ids.mergeSort fun a b => decide (a ≤ b)).dropWhile
      (· < start)).Pairwise (· < ·) := by
    have hne := ((mergeSort_perm e.graph.ids fun a b => decide (a ≤ b)).nodup_iff.mpr hnodup)
    exact ((hsorted.and hne).imp fun h => UInt64.lt_of_le_of_ne h.1 h.2).sublist (dropWhile_sublist _)
  rw [page]
  generalize (e.graph.ids.mergeSort fun a b => decide (a ≤ b)).dropWhile (· < start) = all at hmem hascending
  by_cases hlimit : limit < all.length
  · simp only [if_pos hlimit]
    refine ⟨hascending.sublist (take_sublist _ _), fun id h => (hmem id).mp (mem_of_mem_take h), nofun,
      fun _ => by rw [length_take]; omega, fun _ last hlast => ?_⟩
    -- The page's last id is below the first of those that follow.
    have hsplit := take_append_drop limit all
    rw [← hsplit, pairwise_append] at hascending
    have hlast := mem_of_getLast? hlast
    obtain ⟨next, hnext⟩ := exists_mem_of_length_pos (l := all.drop limit)
      (by rw [length_drop]; omega)
    refine ⟨toNat_add_one_of_lt (hascending.2.2 last hlast next hnext), fun id hid hstart hle => ?_⟩
    have hall := (hmem id).mpr ⟨hid, hstart⟩
    rw [← hsplit, mem_append] at hall
    rcases hall with htake | hdrop
    · exact htake
    · exact absurd (hascending.2.2 last hlast id hdrop) (UInt64.not_lt.mpr hle)
  · simp only [if_neg hlimit]
    exact ⟨hascending, fun id h => (hmem id).mp h, fun _ id hid hstart => (hmem id).mpr ⟨hid, hstart⟩,
      nofun, nofun⟩

theorem formatUint_ne_empty (n : UInt64) : formatUint n ≠ "" := by
  intro h
  have hparse := parseUint_formatUint n
  rw [h] at hparse
  cases hparse

theorem pageStart_formatUint (n : UInt64) : Server.pageStart (formatUint n) = .ok n := by
  rw [Server.pageStart, if_neg (formatUint_ne_empty n), parseUint_formatUint]

section Client
variable {D F : Type} [Hnsw.Dist D] (P : Setup D F) (srv : Server) (given tenantID : String) (size : ℤ)
variable {Q : UInt64 → Prop} {evs : List ListEvent}

structure Listing (D : Type) where
  store : Store D
  token : String
  finished : Bool
  got : List String

def Listing.start (s : Store D) : Listing D := ⟨s, "", false, []⟩

inductive ListEvent
  | call (env : Env) (c : StoreCall)
  | page (env : Env)

def Listing.step (l : Listing D) : ListEvent → Except Empty (Listing D)
  | .call env c => .ok { l with store := (answer P env c l.store).2 }
  | .page env =>
    if l.finished then .ok l
    else
      match (srv.list given tenantID l.token size).run (answer P env) l.store with
      | (.ok (.list ids next), store) => .ok ⟨store, next, next = "", l.got ++ ids⟩
      | (_, store) => .ok { l with store := store }

def liveIn (env : Env) (s : Store D) (id : UInt64) : Prop :=
  ∃ f, mapOf P env s (tenantOf tenantID) = some f ∧ (f id).isSome = true

def Listing.Has (id : UInt64) (l : Listing D) : ListEvent → Prop
  | .call _ _ => True
  | .page env => l.finished = false → liveIn P tenantID env l.store id

/-- What stands in the way of a page: the client's key, the rate limit, and a tenant whose engine
cannot be had. -/
def Listing.Served (l : Listing D) : ListEvent → Prop
  | .call _ _ => False
  | .page env => srv.allow given tenantID false = .ok () ∧ env.allowed 0 = true ∧
    ∃ te s, exec (acquire P env tenantID) l.store = (.ok te, s)

def pages (envs : ℕ → Env) (n : ℕ) : List ListEvent := (List.range n).map fun i => .page (envs i)

variable {P srv given tenantID size} {env : Env} {s s' : Store D} {token : String}

theorem list_ok (hs : Sound P s) (hsize : 1 ≤ size) {r : Response D}
    (h : (srv.list given tenantID token size).run (answer P env) s = (.ok r, s')) :
    ∃ start e, Server.pageStart token = .ok start ∧ s'.engines (tenantOf tenantID) = some e ∧
      (∀ e₀, s.engines (tenantOf tenantID) = some e₀ → e₀ = e) ∧ After P env s s' [] ∧
      r = .list ((page e start size.toNat).ids.map formatUint)
        (Server.nextPageToken (page e start size.toNat)) := by
  obtain ⟨-, -, h⟩ := run_ofExcept_bind_ok h
  split at h
  · cases h
  obtain ⟨start, hstart, h⟩ := run_ofExcept_bind_ok h
  rw [run_ask_bind] at h
  obtain ⟨p, hok, h⟩ := run_ofExcept_bind_ok h
  have hne : size ≠ 0 := by omega
  have hexec : exec (list P env tenantID start size.toNat) s = (.ok p, s') := by
    obtain ⟨-, rfl⟩ := Prod.mk.inj h
    rw [if_neg hne] at hok ⊢
    exact ok_of_reply hok
  obtain ⟨⟨t, e⟩, s₁, hacquire, hexec⟩ := exec_bind_ok hexec
  obtain ⟨_, s₂, hlimited, hexec⟩ := exec_bind_ok hexec
  obtain rfl := limited_ok hlimited
  obtain ⟨hp, rfl⟩ := Prod.mk.inj hexec
  obtain rfl := ok.inj hp
  obtain ⟨hafter, hengine, -⟩ := acquire_ok hs hacquire
  refine ⟨start, e, hstart, hengine, fun e₀ he₀ => ?_, hafter, (ok.inj (Prod.mk.inj h).1).symm⟩
  rcases acquire_cases P env s tenantID with ⟨err, herr⟩ | ⟨t', -, ⟨e', he', hok'⟩ | ⟨hnone, -⟩⟩
  · rw [herr] at hacquire
    cases hacquire
  · rw [hok'] at hacquire
    cases hacquire
    exact Option.some.inj (he₀.symm.trans he')
  · rw [hnone] at he₀
    cases he₀

theorem list_served (hsize : 1 ≤ size) (hmax : size ≤ maxPageSize) {start : UInt64}
    (hstart : Server.pageStart token = .ok start) (hallow : srv.allow given tenantID false = .ok ())
    (hlimit : env.allowed 0 = true) {te : Tenant × Engine D}
    (hacquire : exec (acquire P env tenantID) s = (.ok te, s')) :
    (srv.list given tenantID token size).run (answer P env) s =
      (.ok (.list ((page te.2 start size.toNat).ids.map formatUint)
        (Server.nextPageToken (page te.2 start size.toNat))), s') := by
  have hlist : exec (list P env tenantID start size.toNat) s = (.ok (page te.2 start size.toNat), s') := by
    rw [list, exec_bind, hacquire]
    simp only [limited, hlimit, if_true]
    rfl
  have hrange : ¬(size < 0 || maxPageSize < size) = true := by
    simp only [Bool.or_eq_true, decide_eq_true_eq, not_or, not_lt]
    omega
  have hne : size ≠ 0 := by omega
  rw [Server.list, hallow, ofExcept_ok_bind, if_neg hrange, hstart, ofExcept_ok_bind, run_ask_bind, if_neg hne]
  simp only [answer, reply, hlist]
  rfl

theorem Reached.run {α : Type} (h : Reached P s) (p : CallProgram Status (Answer D) α) :
    Reached P (p.run (answer P env) s).2 := by
  induction p generalizing s with
  | done a => exact h
  | fail e => exact h
  | call c k ih => exact ih _ (h.called env c)

theorem mem_ids_of_liveIn (hafter : After P env s s' []) {e : Engine D}
    (hengine : s'.engines (tenantOf tenantID) = some e) {id : UInt64} (h : liveIn P tenantID env s id) :
    id ∈ e.graph.ids := by
  obtain ⟨f, hf, hid⟩ := h
  have hmap := hafter.maps (tenantOf tenantID)
  obtain ⟨t, -, hk⟩ := hafter.sound _ e hengine
  rw [hf] at hmap
  simp only [mapOf, hengine, itemsFor, filter_nil, map_nil, upsert_nil, Option.map_some,
    Option.some.injEq] at hmap
  rw [← hmap, Engine.contents, Option.isSome_map] at hid
  exact hk.sound.wf.shape.slotted.mem_ids.mpr hid

theorem nodup_of_sound (hs : Sound P s) {id : String} {e : Engine D} (he : s.engines id = some e) :
    e.graph.ids.Nodup := by
  obtain ⟨t, -, hk⟩ := hs id e he
  rw [Graph.ids_eq]
  exact hk.sound.wf.shape.slotted.liveItems_nodup

structure Progress (Q : UInt64 → Prop) (token : String) (finished : Bool) (nums : List UInt64) : Prop where
  ascending : nums.Pairwise (· < ·)
  covered : finished = false → ∃ start, Server.pageStart token = .ok start ∧ (∀ id ∈ nums, id < start) ∧
    ∀ id, Q id → id < start → id ∈ nums
  resumes : finished = false → token = "" ∧ nums = [] ∨
    ∃ last, nums.getLast? = some last ∧ token = formatUint (last + 1) ∧ (last + 1).toNat = last.toNat + 1
  all : finished = true → ∀ id, Q id → id ∈ nums

theorem Progress.start (Q : UInt64 → Prop) : Progress Q "" false [] where
  ascending := .nil
  covered := fun _ => ⟨0, rfl, nofun, fun _ _ h => absurd h (UInt64.not_lt.mpr UInt64.zero_le)⟩
  resumes := fun _ => .inl ⟨rfl, rfl⟩
  all := nofun

theorem Progress.page {nums ids : List UInt64} (h : Progress Q token false nums)
    {start : UInt64} (hstart : Server.pageStart token = .ok start) {limit : ℕ} (hlimit : 1 ≤ limit)
    {p : Page} (hp : PageOf ids start limit p) (hQ : ∀ id, Q id → id ∈ ids) :
    Progress Q (Server.nextPageToken p) (decide (Server.nextPageToken p = "")) (nums ++ p.ids) := by
  obtain ⟨_, hstart', hbelow, hcovered⟩ := h.covered rfl
  obtain rfl := ok.inj (hstart.symm.trans hstart')
  have hascending : (nums ++ p.ids).Pairwise (· < ·) := by
    rw [pairwise_append]
    exact ⟨h.ascending, hp.ascending, fun a ha b hb => UInt64.lt_of_lt_of_le (hbelow a ha) (hp.mem b hb).2⟩
  cases hmore : p.more with
  | false =>
    have htoken : Server.nextPageToken p = "" := by rw [Server.nextPageToken, hmore]
    refine ⟨hascending, by simp [htoken], by simp [htoken], fun _ id hid => ?_⟩
    rcases UInt64.lt_or_le id start with hlt | hle
    · exact mem_append_left _ (hcovered id hid hlt)
    · exact mem_append_right _ (hp.rest hmore id (hQ id hid) hle)
  | true =>
    have hlen := hp.full hmore
    have hne : p.ids ≠ [] := by
      intro hnil
      rw [hnil, length_nil] at hlen
      omega
    obtain ⟨last, hlast⟩ := Option.isSome_iff_exists.mp (getLast?_isSome.mpr hne)
    obtain ⟨hnat, hupTo⟩ := hp.upTo hmore last hlast
    have htoken : Server.nextPageToken p = formatUint (last + 1) := by
      rw [Server.nextPageToken, hmore, hlast]
    have hlt : ∀ id : UInt64, id < last + 1 ↔ id ≤ last := fun id => by
      rw [UInt64.lt_iff_toNat_lt, UInt64.le_iff_toNat_le, hnat, Nat.lt_succ_iff]
    have hgetLast : (nums ++ p.ids).getLast? = some last := by
      rw [getLast?_append, hlast, Option.some_or]
    refine ⟨hascending, fun _ => ⟨last + 1, by rw [htoken, pageStart_formatUint], fun id hid => ?_,
      fun id hid hidlt => ?_⟩, fun _ => .inr ⟨last, hgetLast, htoken, hnat⟩,
      by simp [htoken, formatUint_ne_empty]⟩
    · obtain ⟨before, hbefore⟩ := getLast?_eq_some_iff.mp hgetLast
      rw [hbefore, mem_append, mem_singleton] at hid
      rw [hbefore, pairwise_append] at hascending
      rcases hid with hid | rfl
      · exact (hlt id).mpr (UInt64.le_of_lt (hascending.2.2 id hid last (by simp)))
      · exact (hlt id).mpr UInt64.le_rfl
    · rcases UInt64.lt_or_le id start with hlt' | hle
      · exact mem_append_left _ (hcovered id hid hlt')
      · exact mem_append_right _ (hupTo id (hQ id hid) hle ((hlt id).mp hidlt))

structure Listing.Inv (Q : UInt64 → Prop) (l : Listing D) : Prop where
  reached : Reached P l.store
  shown : ∃ nums, l.got = nums.map formatUint ∧ Progress Q l.token l.finished nums

theorem formatUint_injective : Function.Injective formatUint := by
  intro a b h
  have ha := parseUint_formatUint a
  rw [h, parseUint_formatUint] at ha
  exact (Option.some.inj ha).symm

variable (hsize : 1 ≤ size) (hmax : size ≤ maxPageSize) {l l' : Listing D}
include hsize hmax

theorem step_cases (hl : Reached P l.store) {ev : ListEvent}
    (h : l.step P srv given tenantID size ev = .ok l') : Reached P l'.store ∧
      ((l.finished = false → ∀ start, Server.pageStart l.token = .ok start →
          ¬l.Served P srv given tenantID ev) ∧
          l'.token = l.token ∧ l'.finished = l.finished ∧ l'.got = l.got ∨
        ∃ env start e, ev = .page env ∧ l.finished = false ∧ Server.pageStart l.token = .ok start ∧
          l'.store.engines (tenantOf tenantID) = some e ∧
          (∀ e₀, l.store.engines (tenantOf tenantID) = some e₀ → e₀ = e) ∧
          After P env l.store l'.store [] ∧
          l'.token = Server.nextPageToken (page e start size.toNat) ∧
          l'.finished = decide (l'.token = "") ∧
          l'.got = l.got ++ (page e start size.toNat).ids.map formatUint) := by
  cases ev with
  | call env c =>
    obtain rfl := ok.inj h
    exact ⟨hl.called env c, .inl ⟨fun _ _ _ h => h, rfl, rfl, rfl⟩⟩
  | page env =>
    by_cases hfinished : l.finished = true
    · rw [Listing.step, if_pos hfinished] at h
      obtain rfl := ok.inj h
      exact ⟨hl, .inl ⟨fun hunfinished => by simp [hfinished] at hunfinished, rfl, rfl, rfl⟩⟩
    rw [Listing.step, if_neg hfinished] at h
    have hreached : Reached P ((srv.list given tenantID l.token size).run (answer P env) l.store).2 :=
      hl.run _
    cases hrun : (srv.list given tenantID l.token size).run (answer P env) l.store with
    | mk r store =>
      rw [hrun] at h hreached
      cases r with
      | error err =>
        obtain rfl := ok.inj h
        refine ⟨hreached, .inl ⟨fun _ start hstart hserved => ?_, rfl, rfl, rfl⟩⟩
        obtain ⟨hallow, hlimit, te, s, hacquire⟩ := hserved
        rw [list_served hsize hmax hstart hallow hlimit hacquire] at hrun
        cases hrun
      | ok r =>
        obtain ⟨start, e, hstart, hengine, hsame, hafter, rfl⟩ := list_ok hl.sound hsize hrun
        obtain rfl := ok.inj h
        exact ⟨hreached, .inr ⟨env, start, e, rfl, by simpa using hfinished, hstart, hengine, hsame, hafter,
          rfl, rfl, rfl⟩⟩

theorem Listing.Inv.step {ev : ListEvent} (hl : l.Inv (P := P) Q)
    (hhas : ∀ id, Q id → l.Has P tenantID id ev) (h : l.step P srv given tenantID size ev = .ok l') :
    l'.Inv (P := P) Q := by
  obtain ⟨nums, hgot, hnums⟩ := hl.shown
  obtain ⟨hreached, ⟨-, htoken, hfinished, hgot'⟩ |
    ⟨env, start, e, rfl, hunfinished, hstart, hengine, -, hafter, htoken, hfinished, hgot'⟩⟩ :=
      step_cases hsize hmax hl.reached h
  · exact ⟨hreached, nums, by rw [hgot', hgot], by rw [htoken, hfinished]; exact hnums⟩
  · refine ⟨hreached, nums ++ (page e start size.toNat).ids, by rw [hgot', hgot, map_append], ?_⟩
    rw [hunfinished] at hnums
    rw [hfinished, htoken]
    exact hnums.page hstart (by omega) (page_spec (nodup_of_sound hafter.sound hengine) _ _)
      fun id hid => mem_ids_of_liveIn hafter hengine (hhas id hid hunfinished)

theorem Listing.Inv.run (hl : l.Inv (P := P) Q)
    (hhas : Along (Listing.step P srv given tenantID size)
      (fun l ev => ∀ id, Q id → l.Has P tenantID id ev) l evs)
    (hrun : run (Listing.step P srv given tenantID size) l evs = .ok l') : l'.Inv (P := P) Q :=
  run_keeps (fun hI hP h => hI.step hsize hmax hP h) hl hhas hrun

theorem Listing.Inv.run_none (hl : l.Inv (P := P) fun _ => False)
    (hrun : EventRun.run (Listing.step P srv given tenantID size) l evs = .ok l') :
    l'.Inv (P := P) fun _ => False :=
  hl.run hsize hmax (along_of_forall (fun _ _ _ h => h.elim) _ _) hrun

theorem finished_of_run (hl : Reached P l.store) (hfinished : l.finished = true)
    (hrun : run (Listing.step P srv given tenantID size) l evs = .ok l') :
    l'.finished = true := by
  have hkeeps : Reached P l'.store ∧ l'.finished = true := by
    refine run_keeps (P := fun _ _ => True) (I := fun l => Reached P l.store ∧ l.finished = true)
      (fun {l ev l'} hI _ h => ?_) ⟨hl, hfinished⟩ (along_of_forall (fun _ _ => trivial) _ _) hrun
    obtain ⟨hreached, ⟨-, -, hfinished', -⟩ | ⟨_, _, _, -, hunfinished, -⟩⟩ := step_cases hsize hmax hI.1 h
    · exact ⟨hreached, hfinished'.trans hI.2⟩
    · rw [hI.2] at hunfinished
      cases hunfinished
  exact hkeeps.2

omit hsize hmax in
variable (P srv given tenantID size) in
theorem exists_run (l : Listing D) (evs : List ListEvent) :
    ∃ l', run (Listing.step P srv given tenantID size) l evs = .ok l' := by
  cases h : run (Listing.step P srv given tenantID size) l evs with
  | error err => exact err.elim
  | ok l' => exact ⟨l', rfl⟩

theorem pages_full (hl : l.Inv (P := P) fun _ => False) {evs : List ListEvent}
    (hserved : Along (Listing.step P srv given tenantID size) (Listing.Served P srv given tenantID) l evs)
    (hrun : run (Listing.step P srv given tenantID size) l evs = .ok l') (hunfinished : l'.finished = false) :
    ∃ new : List UInt64, new.length = evs.length * size.toNat ∧ l'.got = l.got ++ new.map formatUint ∧
      (∀ e, l.store.engines (tenantOf tenantID) = some e → l'.store.engines (tenantOf tenantID) = some e) ∧
      ∀ id ∈ new, ∃ e, l'.store.engines (tenantOf tenantID) = some e ∧ id ∈ e.graph.ids := by
  induction evs generalizing l with
  | nil =>
    obtain rfl := ok.inj hrun
    exact ⟨[], by simp, by simp, fun _ h => h, nofun⟩
  | cons ev evs ih =>
    cases hl' : l.finished with
    | true =>
      rw [finished_of_run hsize hmax hl.reached hl' hrun] at hunfinished
      cases hunfinished
    | false =>
    obtain ⟨nums, -, hnums⟩ := hl.shown
    obtain ⟨start₀, hstart₀, -⟩ := hnums.covered hl'
    cases hstep : l.step P srv given tenantID size ev with
    | error err => exact err.elim
    | ok l₁ =>
    rw [run_cons hstep] at hrun
    obtain ⟨hreached, ⟨hnot, -⟩ |
      ⟨env, start, e, rfl, -, -, hengine, hsame, hafter, htoken, hfinished, hgot⟩⟩ :=
        step_cases hsize hmax hl.reached hstep
    · exact absurd hserved.1 (hnot hl' start₀ hstart₀)
    have hl₁ : l₁.Inv (P := P) fun _ => False := hl.step hsize hmax (fun _ h => h.elim) hstep
    obtain ⟨new, hlen, hnew, hkept, hids⟩ := ih hl₁ (hserved.2 l₁ hstep) hrun
    have hp := page_spec (nodup_of_sound hafter.sound hengine) start size.toNat
    have hmore : (page e start size.toNat).more = true := by
      cases hmore : (page e start size.toNat).more with
      | true => rfl
      | false =>
        have hempty : l₁.token = "" := by rw [htoken, Server.nextPageToken, hmore]
        rw [finished_of_run hsize hmax hreached (by rw [hfinished, hempty]; rfl) hrun] at hunfinished
        cases hunfinished
    refine ⟨(page e start size.toNat).ids ++ new, ?_, ?_, fun e₀ he₀ => ?_, fun id hid => ?_⟩
    · rw [length_append, hlen, hp.full hmore, length_cons, Nat.succ_mul, Nat.add_comm]
    · rw [hnew, hgot, map_append, append_assoc]
    · exact hsame e₀ he₀ ▸ hkept e hengine
    · rcases mem_append.mp hid with hid | hid
      · exact ⟨e, hkept e hengine, (hp.mem id hid).1⟩
      · exact hids id hid

theorem pages_le (hl : l.Inv (P := P) fun _ => False) {evs : List ListEvent}
    (hserved : Along (Listing.step P srv given tenantID size) (Listing.Served P srv given tenantID) l evs)
    (hrun : run (Listing.step P srv given tenantID size) l evs = .ok l') (hunfinished : l'.finished = false)
    {e : Engine D} (he : l.store.engines (tenantOf tenantID) = some e) :
    evs.length ≤ e.graph.ids.length := by
  obtain ⟨new, hlen, hnew, hkept, hids⟩ := pages_full hsize hmax hl hserved hrun hunfinished
  obtain ⟨nums, hgot, hnums⟩ := (hl.run_none hsize hmax hrun).shown
  have hnodup : new.Nodup := by
    have hall : (nums.map formatUint).Nodup :=
      (hnums.ascending.imp fun h => UInt64.ne_of_lt h).map _ fun _ _ h => formatUint_injective.ne h
    rw [← hgot, hnew] at hall
    exact (nodup_append.mp hall).2.1.of_map _
  have hsub : new ⊆ e.graph.ids := fun id hid => by
    obtain ⟨e', he', hmem⟩ := hids id hid
    rw [hkept e he] at he'
    exact Option.some.inj he' ▸ hmem
  have hle := (hnodup.subperm hsub).length_le
  calc evs.length ≤ evs.length * size.toNat := Nat.le_mul_of_pos_right _ (by omega)
    _ = new.length := hlen.symm
    _ ≤ e.graph.ids.length := hle

theorem pages_end {l : Listing D} (hl : l.Inv (P := P) fun _ => False) (envs : ℕ → Env)
    (hserved : ∀ n, Along (Listing.step P srv given tenantID size) (Listing.Served P srv given tenantID) l
      (pages envs n)) :
    ∃ n l', run (Listing.step P srv given tenantID size) l (pages envs n) = .ok l' ∧ l'.finished = true := by
  by_contra hnever
  have hunfinished : ∀ n l', run (Listing.step P srv given tenantID size) l (pages envs n) = .ok l' →
      l'.finished = false := fun n l' hrun => by
    rw [Bool.eq_false_iff]
    exact fun hfinished => hnever ⟨n, l', hrun, hfinished⟩
  have hpages : ∀ n, pages envs (n + 1) = .page (envs 0) :: pages (fun i => envs (i + 1)) n := fun n => by
    simp [pages, range_succ_eq_map, Function.comp_def]
  -- The first page leaves an open engine, which has as many ids as there are pages after it.
  cases hstep : l.step P srv given tenantID size (.page (envs 0)) with
  | error err => exact err.elim
  | ok l₁ =>
  have hone : run (Listing.step P srv given tenantID size) l (pages envs 1) = .ok l₁ := by
    rw [hpages, run_cons hstep]
    rfl
  obtain ⟨new, hlen, -, -, hids⟩ := pages_full hsize hmax hl (hserved 1) hone (hunfinished 1 l₁ hone)
  obtain ⟨id, hid⟩ := exists_mem_of_length_pos (l := new) (by
    rw [hlen]
    exact Nat.mul_pos (by simp [pages]) (by omega))
  obtain ⟨e, he, -⟩ := hids id hid
  obtain ⟨l', hrun⟩ := exists_run P srv given tenantID size l₁
    (pages (fun i => envs (i + 1)) (e.graph.ids.length + 1))
  have hall := hserved (e.graph.ids.length + 1 + 1)
  rw [hpages] at hall
  have hle := pages_le hsize hmax (hl.run_none hsize hmax hone) (hall.2 l₁ hstep) hrun
    (hunfinished (e.graph.ids.length + 1 + 1) l' (by rw [hpages, run_cons hstep, hrun])) he
  simp only [pages, length_map, length_range] at hle
  omega

theorem paging_shows_each_id_once (hs : Reached P s) {evs : List ListEvent} {l : Listing D}
    (hrun : run (Listing.step P srv given tenantID size) (Listing.start s) evs = .ok l) :
    (∃ nums : List UInt64, l.got = nums.map formatUint ∧ nums.Pairwise (· < ·) ∧
      (l.finished = false → l.token = "" ∧ nums = [] ∨ ∃ last, nums.getLast? = some last ∧
        l.token = formatUint (last + 1) ∧ (last + 1).toNat = last.toNat + 1)) ∧
    (l.finished = true → ∀ id, Along (Listing.step P srv given tenantID size) (Listing.Has P tenantID id)
      (Listing.start s) evs → l.got.count (formatUint id) = 1) ∧
    ∀ envs : ℕ → Env, (∀ n, Along (Listing.step P srv given tenantID size)
      (Listing.Served P srv given tenantID) l (pages envs n)) →
      ∃ n l', run (Listing.step P srv given tenantID size) l (pages envs n) = .ok l' ∧ l'.finished = true := by
  have hstart : ∀ Q, (Listing.start s).Inv (P := P) Q := fun Q => ⟨hs, [], rfl, .start Q⟩
  have hl := (hstart fun _ => False).run_none hsize hmax hrun
  refine ⟨?_, fun hfinished id hhas => ?_, pages_end hsize hmax hl⟩
  · obtain ⟨nums, hgot, hnums⟩ := hl.shown
    exact ⟨nums, hgot, hnums.ascending, hnums.resumes⟩
  · have hhas' : Along (Listing.step P srv given tenantID size)
        (fun l ev => ∀ id', id' = id → l.Has P tenantID id' ev) (Listing.start s) evs := by
      simpa only [forall_eq] using hhas
    obtain ⟨nums, hgot, hnums⟩ := ((hstart (· = id)).run hsize hmax hhas' hrun).shown
    rw [hgot, count_map_of_injective _ _ formatUint_injective]
    exact count_eq_one_of_mem (hnums.ascending.imp fun h => UInt64.ne_of_lt h)
      (hnums.all hfinished id rfl)

end Client

section Examples

def greatest : UInt64 := 18446744073709551615

noncomputable def bothEnds : Store Exact :=
  (answer lineSetup someEnv (.insert "" greatest [1] ∅)
    (answer lineSetup someEnv (.insert "" 0 [0] ∅) oneTenant).2).2

theorem bothEnds_acquired : ∃ te : Tenant × Engine Exact,
    exec (acquire lineSetup someEnv "") bothEnds = (.ok te, bothEnds) ∧ te.2.graph.ids = [0, greatest] := by
  have hids : (bothEnds.engines "default").map (·.graph.ids) = some [0, greatest] := by decide +kernel
  have hok : (exec (acquire lineSetup someEnv "") bothEnds).1.isOk = true := by decide +kernel
  rcases acquire_cases lineSetup someEnv bothEnds "" with ⟨err, herr⟩ | ⟨t, -, ⟨e, he, hacquire⟩ | ⟨hnone, -⟩⟩
  · rw [herr] at hok
    cases hok
  · refine ⟨(t, e), hacquire, ?_⟩
    rw [show tenantOf "" = "default" from rfl] at he
    rw [he] at hids
    exact Option.some.inj hids
  · rw [show tenantOf "" = "default" from rfl] at hnone
    rw [hnone] at hids
    cases hids

def bothListed : List ListEvent :=
  [.call someEnv (.insert "" 0 [0] ∅), .call someEnv (.insert "" greatest [1] ∅), .page someEnv, .page someEnv]

theorem bothListed_run : run (Listing.step lineSetup Server.new "" "" 1) (Listing.start oneTenant) bothListed =
    .ok ⟨bothEnds, "", true, ["0", "18446744073709551615"]⟩ := by
  obtain ⟨te, hacquire, hids⟩ := bothEnds_acquired
  have hsort : ([0, greatest] : List UInt64).mergeSort (fun a b => decide (a ≤ b)) = [0, greatest] :=
    mergeSort_of_pairwise (by decide)
  have hfirst : page te.2 0 1 = ⟨[0], true⟩ := by
    rw [page, hids, hsort]
    rfl
  have hsecond : page te.2 1 1 = ⟨[greatest], false⟩ := by
    rw [page, hids, hsort]
    rfl
  have hpage : ∀ {l : Listing Exact} {start : UInt64}, l.store = bothEnds → l.finished = false →
      Server.pageStart l.token = .ok start →
      l.step lineSetup Server.new "" "" 1 (.page someEnv) =
        .ok ⟨bothEnds, Server.nextPageToken (page te.2 start 1),
          Server.nextPageToken (page te.2 start 1) = "", l.got ++ (page te.2 start 1).ids.map formatUint⟩ :=
    fun {l start} hstore hfinished hstart => by
      rw [Listing.step, if_neg (by simp [hfinished]), hstore,
        list_served (by decide) (by decide) hstart rfl rfl hacquire]
      rfl
  rw [bothListed, run_cons rfl, run_cons rfl, run_cons (hpage rfl rfl rfl), hfirst,
    run_cons (hpage rfl rfl (pageStart_formatUint 1)), hsecond]
  rfl

theorem bothListed_once :
    run (Listing.step lineSetup Server.new "" "" 1) (Listing.start oneTenant) bothListed =
      .ok ⟨bothEnds, "", true, ["0", "18446744073709551615"]⟩ ∧
    ∀ id, Along (Listing.step lineSetup Server.new "" "" 1) (Listing.Has lineSetup "" id)
      (Listing.start oneTenant) bothListed → ["0", "18446744073709551615"].count (formatUint id) = 1 :=
  ⟨bothListed_run, (paging_shows_each_id_once (by decide) (by decide) (.opened _ _) bothListed_run).2.1 rfl⟩

end Examples

end NuclaDB.StoreCalls
