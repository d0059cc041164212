import NuclaDB.EngineAgree
import NuclaDB.StoreRoot

/-!
# Reopening a store

What the calls leave in the root directory is what `OpenStore` finds there, unless a tenant
has an id that the root has another use for.
-/

namespace NuclaDB.StoreRoot

open LittleEndian FileTree EventRun KeyedLog Cursor Function List Except

section Ids

theorem base_eq_self {l : List Char} (h : base l = l) : l = ['/'] ∨ '/' ∉ l := by
  simp only [base] at h
  split at h
  · next hempty =>
    rw [List.isEmpty_iff] at hempty
    simp [hempty] at h
  · split at h
    · exact .inl h.symm
    · refine .inr ?_
      rw [← h, mem_reverse]
      intro hmem
      simpa using mem_takeWhile_imp hmem

theorem tenantPath_of_valid {id : String} (h : validTenantID id) : id = "/" ∨ tenantPath id = [id] := by
  simp only [validTenantID, Bool.and_eq_true, Bool.not_eq_true', Bool.or_eq_false_iff, decide_eq_false_iff_not,
    ne_eq, not_not] at h
  obtain ⟨⟨⟨⟨⟨hne, -⟩, -⟩, -⟩, hbase⟩, -⟩ := h
  refine (base_eq_self hbase).imp (fun hslash => String.toList_inj.mp hslash) fun hslash => ?_
  have hsplit : id.toList.splitOn '/' = [id.toList] := by
    refine splitOnP_eq_singleton fun c hc => ?_
    simp only [beq_eq_false_iff_ne]
    rintro rfl
    exact hslash hc
  have hfull : id.toList.isEmpty = false := by simpa using hne
  simp [tenantPath, hsplit, hfull]

theorem ne_slash {id : String} (h : tenantPath id = [id]) : id ≠ "/" := by
  rintro rfl
  cases h

theorem tenantPath_default : tenantPath defaultTenant = [defaultTenant] := by decide

theorem isDeletedName_deletedName (nanos : ℤ) (id : String) : isDeletedName (deletedName nanos id) := by
  simp [isDeletedName, deletedName, String.toList_append]

end Ids

section Disk
variable {J : FileCodec} {es es' files : Entries} {look look' : String → Option Tenant} {id : String}
  {t : Tenant} {root root' : Tree} {quota : Quota} {cfg : Config}

structure TenantFiles (J : FileCodec) (files : Entries) (t : Tenant) : Prop where
  quota : ∃ b, files.dlookup quotaFile = some (.file b) ∧ J.unmarshalQuota b = some t.quota
  valid : validateQuota t.quota
  index : files.dlookup indexFile = some (.file (J.index.marshal t.cfg.spec))

theorem TenantFiles.ne_nil (h : TenantFiles J files t) : files ≠ [] := by
  rintro rfl
  cases h.index

/-- The root has each tenant's directory, and otherwise only what deleted tenants have left, unless it
is itself a tenant's directory. -/
structure Disk (J : FileCodec) (es : Entries) (look : String → Option Tenant) : Prop where
  nodup : es.NodupKeys
  slash : "/" ∉ es.keys
  stored : ∀ {id t}, look id = some t → id ≠ "/" → ∃ files, es.dlookup id = some (.dir files) ∧
    TenantFiles J files t
  names : look "/" = none → ∀ n ∈ es.keys, (look n).isSome ∨ isDeletedName n

theorem mem_keys_of_only {n m : String} (h : Only n es es') (hm : m ≠ n) : m ∈ es'.keys ↔ m ∈ es.keys := by
  rw [← dlookup_isSome, ← dlookup_isSome, h.same m hm]

theorem Disk.entry (h : Disk J es look) (hid : id ≠ "/") (honly : Only id es es')
    (hentry : es'.dlookup id = some (.dir files)) (hfiles : TenantFiles J files t) :
    Disk J es' (update look id (some t)) where
  nodup := honly.nodup h.nodup
  slash hmem := h.slash ((mem_keys_of_only honly (Ne.symm hid)).mp hmem)
  stored {n u} hn hslash := by
    by_cases hnid : n = id
    · subst hnid
      rw [update_self, Option.some.injEq] at hn
      exact ⟨files, hentry, hn ▸ hfiles⟩
    · rw [update_of_ne hnid] at hn
      rw [honly.same n hnid]
      exact h.stored hn hslash
  names hnone n hn := by
    rw [update_of_ne (Ne.symm hid)] at hnone
    by_cases hnid : n = id
    · subst hnid
      simp
    · rw [update_of_ne hnid]
      exact h.names hnone n ((mem_keys_of_only honly hnid).mp hn)

theorem Disk.atRoot (h : Disk J es look) {names : List String} (hkeeps : KeepsDirs names es es')
    (hnames : "/" ∉ names) (hlook : ∀ n, n ≠ "/" → look' n = look n) (hslash : look' "/" ≠ none) :
    Disk J es' look' where
  nodup := hkeeps.nodup h.nodup
  slash hmem := (hkeeps.keys _ hmem).elim hnames h.slash
  stored {n u} hn hne := by
    rw [hlook n hne] at hn
    obtain ⟨files, hentry, hfiles⟩ := h.stored hn hne
    exact ⟨files, hkeeps.same hentry hfiles.ne_nil, hfiles⟩
  names hnone := absurd hnone hslash

theorem Disk.deleted (h : Disk J es look) {name : String} (hid : id ≠ "/") (hname : isDeletedName name)
    (hfree : es.dlookup name = none) (hnodup : es'.NodupKeys)
    (hsame : ∀ n, n ≠ id → n ≠ name → es'.dlookup n = es.dlookup n) (hgone : es'.dlookup id = none) :
    Disk J es' (update look id none) where
  nodup := hnodup
  slash hmem := by
    have hslash : es'.dlookup "/" = es.dlookup "/" := by
      refine hsame _ (Ne.symm hid) ?_
      rintro rfl
      exact absurd hname (by decide)
    rw [← dlookup_isSome, hslash, dlookup_isSome] at hmem
    exact h.slash hmem
  stored {n u} hn hne := by
    by_cases hnid : n = id
    · rw [hnid, update_self] at hn
      cases hn
    · rw [update_of_ne hnid] at hn
      obtain ⟨files, hentry, hfiles⟩ := h.stored hn hne
      refine ⟨files, ?_, hfiles⟩
      rw [hsame n hnid, hentry]
      rintro rfl
      rw [hfree] at hentry
      cases hentry
  names hnone n hn := by
    rw [update_of_ne (Ne.symm hid)] at hnone
    by_cases hnid : n = id
    · rw [← dlookup_isSome, hnid, hgone] at hn
      cases hn
    · rw [update_of_ne hnid]
      by_cases hnname : n = name
      · exact .inr (hnname ▸ hname)
      · rw [← dlookup_isSome, hsame n hnid hnname, dlookup_isSome] at hn
        exact h.names hnone n hn

theorem onDisk_eq_ok {α : Type} {x : Except FileTree.Error α} {a : α} : onDisk x = .ok a ↔ x = .ok a := by
  cases x with
  | error e => simp [onDisk, Except.mapError]
  | ok b => simp [onDisk, Except.mapError]

theorem saveQuota_eq_ok {dir : List String} : saveQuota J root dir quota = .ok root' ↔
    ∃ b, J.marshalQuota quota = some b ∧ root.edit (Tree.replaceHere quotaFile b) dir = .ok root' := by
  simp only [saveQuota]
  cases J.marshalQuota quota with
  | none => simp
  | some b => simp [onDisk_eq_ok]

theorem unmarshal_of_marshal (hquota : validateQuota quota) {b : Bytes} (hb : J.marshalQuota quota = some b) :
    J.unmarshalQuota b = some quota := by
  obtain ⟨b', hb', hread⟩ := J.quota_round_trip quota hquota
  rw [hb, Option.some.injEq] at hb'
  exact hb' ▸ hread

theorem saveQuota_entry (hquota : validateQuota quota) (hfiles : es.dlookup id = some (.dir files))
    (h : saveQuota J (.dir es) [id] quota = .ok root) : ∃ es' files', root = .dir es' ∧ Only id es es' ∧
      es'.dlookup id = some (.dir files') ∧
      (∃ b, files'.dlookup quotaFile = some (.file b) ∧ J.unmarshalQuota b = some quota) ∧
      files'.dlookup indexFile = files.dlookup indexFile := by
  obtain ⟨b, hb, h⟩ := saveQuota_eq_ok.mp h
  obtain ⟨x, y, es', hx, hreplace, rfl, hy, honly⟩ := Tree.edit_entry h
  obtain ⟨files₁, files', rfl, rfl, hwritten, hsame, -⟩ := Tree.replaceHere_ok hreplace
  rw [hfiles, Option.some.injEq, Tree.dir.injEq] at hx
  subst hx
  exact ⟨es', files', rfl, honly, hy, ⟨b, hwritten, unmarshal_of_marshal hquota hb⟩, hsame _ (by decide) (by decide)⟩

theorem createFiles_entry (hquota : validateQuota quota)
    (h : createFiles J (.dir es) [id] quota cfg = .ok root) : ∃ es' files, root = .dir es' ∧ Only id es es' ∧
      es'.dlookup id = some (.dir files) ∧ TenantFiles J files ⟨quota, cfg⟩ := by
  simp only [createFiles, except_bind_eq_ok] at h
  obtain ⟨root₁, hmkdir, root₂, hindex, h⟩ := h
  obtain ⟨files₁, es₁, rfl, hfiles₁, honly₁⟩ := Tree.mkdirAll_entry (onDisk_eq_ok.mp hmkdir)
  obtain ⟨x, y, es₂, hx, hreplace, rfl, hy, honly₂⟩ := Tree.edit_entry (onDisk_eq_ok.mp hindex)
  obtain ⟨-, files₂, -, rfl, hwritten, -, -⟩ := Tree.replaceHere_ok hreplace
  obtain ⟨es', files, rfl, honly, hfiles, hread, hkept⟩ := saveQuota_entry hquota hy h
  exact ⟨es', files, rfl, (honly₁.trans honly₂).trans honly, hfiles, hread, hquota,
    hkept.trans hwritten⟩

theorem saveQuota_root (h : saveQuota J (.dir es) [] quota = .ok root) :
    ∃ es', root = .dir es' ∧ KeepsDirs [quotaFile] es es' := by
  obtain ⟨b, -, h⟩ := saveQuota_eq_ok.mp h
  obtain ⟨es₁, es', heq, rfl, -, -, hkeeps⟩ := Tree.replaceHere_ok h
  obtain rfl := Tree.dir.inj heq
  exact ⟨es', rfl, hkeeps⟩

theorem createFiles_root (h : createFiles J (.dir es) [] quota cfg = .ok root) :
    ∃ es', root = .dir es' ∧ KeepsDirs [quotaFile, indexFile] es es' := by
  simp only [createFiles, except_bind_eq_ok] at h
  obtain ⟨root₁, hmkdir, root₂, hindex, h⟩ := h
  obtain rfl := ok.inj (onDisk_eq_ok.mp hmkdir)
  obtain ⟨es₁, es₂, heq, rfl, -, -, hkeeps₁⟩ := Tree.replaceHere_ok (onDisk_eq_ok.mp hindex)
  obtain rfl := Tree.dir.inj heq
  obtain ⟨es', rfl, hkeeps⟩ := saveQuota_root h
  exact ⟨es', rfl, hkeeps₁.trans hkeeps⟩

theorem engineFiles_ne : ∀ n ∈ engineFiles, n ≠ quotaFile ∧ n ≠ indexFile ∧ n ≠ "/" := by decide

theorem change_ok {file : EngineFile} {content : Option Bytes} {x y : Tree}
    (h : (match content with
      | some b => Tree.writeHere file.1 b
      | none => Tree.removeHere file.1) x = .ok y) :
    ∃ es es', x = .dir es ∧ y = .dir es' ∧ (∀ m, m ≠ file.1 → es'.dlookup m = es.dlookup m) ∧
      KeepsDirs [file.1] es es' := by
  cases content with
  | none => exact Tree.removeHere_ok h
  | some b => exact Tree.writeHere_ok h

theorem Disk.rename (h : Disk J es look) (hid : id ≠ "/") (hlook : look id = some t) {nanos : ℤ}
    (hrename : (Tree.dir es).rename [id] [] (deletedName nanos id) = .ok root) : ∃ es₁, root = .dir es₁ ∧
      es₁.NodupKeys ∧ ∀ es₂, es₂.NodupKeys →
        (∀ n, n ≠ deletedName nanos id → es₂.dlookup n = es₁.dlookup n) →
        Disk J es₂ (update look id none) := by
  obtain ⟨files, hfiles, -⟩ := h.stored hlook hid
  obtain ⟨hne, hfree, rfl⟩ := Tree.rename_entry hfiles hrename
  refine ⟨_, rfl, kinsert_nodupKeys _ _ (h.nodup.kerase _), fun es₂ hnodup hsame => ?_⟩
  refine h.deleted hid (isDeletedName_deletedName nanos id) hfree hnodup (fun n hnid hn => ?_) ?_
  · rw [hsame n hn, dlookup_kinsert_ne hn, dlookup_kerase_ne hnid]
  · rw [hsame id hne, dlookup_kinsert_ne hne, dlookup_kerase _ h.nodup]

end Disk

section Steps
variable {J : FileCodec} {s s' : Store} {cfg : Config} {want : String → Option (Quota × IndexSpec)}

/-- The default tenant's dimension is the one of the store that made it. -/
structure Suits (cfg : Config) (id : String) (t : Tenant) : Prop where
  path : id = "/" ∨ tenantPath id = [id]
  dim : 0 < cfg.dim → 0 < t.cfg.dim
  default : id = defaultTenant → 0 < t.cfg.dim → 0 < cfg.dim

structure Kept (J : FileCodec) (cfg : Config) (want : String → Option (Quota × IndexSpec)) (s : Store) :
    Prop where
  cfg_eq : s.cfg = cfg
  disk : ∃ es, s.root = .dir es ∧ Disk J es fun id => s.tenants.lookup id
  memory : ∀ id, (s.tenants.lookup id).map Tenant.info = want id
  suits : ∀ {id t}, s.tenants.lookup id = some t → Suits cfg id t
  found : (s.tenants.lookup defaultTenant).isSome

theorem name_of_metricByName {name : String} {m : Metric} (h : metricByName name = some m) : m.name = name := by
  simp only [metricByName] at h
  split_ifs at h with h₁ h₂ h₃ <;> cases h <;> simp_all [Metric.name]

theorem withSpec_eq_ok {cfg' : Config} {spec : IndexSpec} (h : cfg.withSpec spec = .ok cfg') :
    cfg'.spec = ⟨if 0 < spec.dim then spec.dim else cfg.dim,
      if spec.metric = "" then cfg.spec.metric else spec.metric⟩ ∧ (0 < cfg.dim → 0 < cfg'.dim) := by
  have hcfg : (if 0 < spec.dim then { cfg with dim := spec.dim } else cfg) =
      (⟨if 0 < spec.dim then spec.dim else cfg.dim, cfg.metric⟩ : Config) := by
    split <;> rfl
  have hpos : 0 < cfg.dim → 0 < if 0 < spec.dim then spec.dim else cfg.dim := by
    intro hdim
    split <;> assumption
  simp only [Config.withSpec, hcfg] at h
  split at h
  · cases h
  · split at h
    · next hmetric =>
      obtain rfl := ok.inj h
      exact ⟨by simp [Config.spec, Config.metricName, hmetric], hpos⟩
    · next hmetric =>
      split at h
      · cases h
      · next m hm =>
        obtain rfl := ok.inj h
        exact ⟨by simp [Config.spec, Config.metricName, hmetric, name_of_metricByName hm], hpos⟩

theorem lookup_insert (tenants : AList fun _ : String => Tenant) (id : String) (t : Tenant) :
    (fun n => (tenants.insert id t).lookup n) = update (fun n => tenants.lookup n) id (some t) := by
  funext n
  by_cases hn : n = id
  · rw [hn, update_self, AList.lookup_insert]
  · rw [update_of_ne hn, AList.lookup_insert_ne hn]

theorem lookup_erase (tenants : AList fun _ : String => Tenant) (id : String) :
    (fun n => (tenants.erase id).lookup n) = update (fun n => tenants.lookup n) id none := by
  funext n
  by_cases hn : n = id
  · rw [hn, update_self, AList.lookup_erase]
  · rw [update_of_ne hn, AList.lookup_erase_ne hn]

namespace Kept

variable {id : String} {quota : Quota} {root : Tree} {es : Entries} {t : Tenant}

section
variable (h : Kept J cfg want s)
include h

theorem insert (hdisk : Disk J es (update (fun n => s.tenants.lookup n) id (some t)))
    (hsuits : Suits cfg id t) :
    Kept J cfg (update want id (some t.info))
      { s with root := .dir es, tenants := s.tenants.insert id t } := by
  have hlook := congrFun (lookup_insert s.tenants id t)
  refine ⟨h.cfg_eq, ⟨es, rfl, lookup_insert s.tenants id t ▸ hdisk⟩, fun n => ?_, fun {n u} hn => ?_, ?_⟩
  · rw [hlook]
    by_cases hnid : n = id
    · subst hnid
      simp
    · rw [update_of_ne hnid, update_of_ne hnid, h.memory]
  · by_cases hnid : n = id
    · subst hnid
      rw [hlook, update_self, Option.some.injEq] at hn
      exact hn ▸ hsuits
    · rw [hlook, update_of_ne hnid] at hn
      exact h.suits hn
  · rw [hlook]
    by_cases hdefault : defaultTenant = id
    · subst hdefault
      simp
    · rw [update_of_ne hdefault]
      exact h.found

theorem erase (hid : ¬ (id = "" ∨ id = defaultTenant))
    (hdisk : Disk J es (update (fun n => s.tenants.lookup n) id none)) :
    Kept J cfg (update want id none) { s with root := .dir es, tenants := s.tenants.erase id } := by
  have hlook := congrFun (lookup_erase s.tenants id)
  refine ⟨h.cfg_eq, ⟨es, rfl, lookup_erase s.tenants id ▸ hdisk⟩, fun n => ?_, fun {n u} hn => ?_, ?_⟩
  · rw [hlook]
    by_cases hnid : n = id
    · subst hnid
      simp
    · rw [update_of_ne hnid, update_of_ne hnid, h.memory]
  · rw [hlook] at hn
    by_cases hnid : n = id
    · rw [hnid, update_self] at hn
      cases hn
    · rw [update_of_ne hnid] at hn
      exact h.suits hn
  · rw [hlook, update_of_ne fun heq => hid (.inr heq.symm)]
    exact h.found

theorem createTenantWithIndex {spec : IndexSpec}
    (hstep : s.createTenantWithIndex J id quota spec = .ok s') :
    Kept J cfg (put Call.tenant (Call.effect cfg.spec) want (.createTenantWithIndex id quota spec)) s' := by
  simp only [Store.createTenantWithIndex] at hstep
  split_ifs at hstep with hclosed hquota hid hexists
  · obtain ⟨_, -, hstep⟩ := except_bind_eq_ok.mp hstep
    cases hstep
  simp only [except_bind_eq_ok] at hstep
  obtain ⟨cfg', hspec, root, hfiles, hstep⟩ := hstep
  rw [h.cfg_eq] at hspec
  obtain ⟨hinfo, hdim⟩ := withSpec_eq_ok hspec
  obtain rfl := ok.inj hstep
  have hquota : validateQuota quota := by simpa using hquota
  have hput : put Call.tenant (Call.effect cfg.spec) want (.createTenantWithIndex id quota spec) =
      update want id (some (Tenant.info ⟨quota, cfg'⟩)) := by
    rw [Tenant.info, hinfo]
    rfl
  obtain ⟨es, hroot, hdisk⟩ := h.disk
  rw [hput]
  rw [hroot] at hfiles
  have hvalid := tenantPath_of_valid (by simpa using hid)
  have hsuits : Suits cfg id ⟨quota, cfg'⟩ := by
    refine ⟨hvalid, hdim, ?_⟩
    rintro rfl
    exact absurd h.found hexists
  rcases hvalid with rfl | hpath
  · obtain ⟨es', rfl, hkeeps⟩ := createFiles_root hfiles
    refine h.insert (hdisk.atRoot hkeeps (by decide) (fun n hn => ?_) ?_) hsuits
    · rw [update_of_ne hn]
    · simp
  · rw [hpath] at hfiles
    obtain ⟨es', files, rfl, honly, hentry, htenant⟩ := createFiles_entry hquota hfiles
    exact h.insert (hdisk.entry (ne_slash hpath) honly hentry htenant) hsuits

theorem setQuota (hstep : s.setQuota J id quota = .ok s') :
    Kept J cfg (put Call.tenant (Call.effect cfg.spec) want (.setQuota id quota)) s' := by
  simp only [Store.setQuota] at hstep
  generalize hname : (if id = "" then defaultTenant else id) = name at hstep
  split_ifs at hstep with hclosed hquota
  have hquota : validateQuota quota := by simpa using hquota
  split at hstep
  · cases hstep
  · next t ht =>
    obtain ⟨root, hsave, hstep⟩ := except_bind_eq_ok.mp hstep
    obtain rfl := ok.inj hstep
    have hput : put Call.tenant (Call.effect cfg.spec) want (.setQuota id quota) =
        update want name (some (Tenant.info { t with quota := quota })) := by
      have hwant : want name = some t.info := by rw [← h.memory, ht, Option.map_some]
      simp only [put, Call.tenant, Call.effect, hname, hwant]
      rfl
    obtain ⟨es, hroot, hdisk⟩ := h.disk
    rw [hput]
    rw [hroot] at hsave
    have hsuits := h.suits ht
    rcases hsuits.path with rfl | hpath
    · obtain ⟨es', rfl, hkeeps⟩ := saveQuota_root hsave
      refine h.insert (hdisk.atRoot hkeeps (by decide) (fun n hn => ?_) ?_) ⟨.inl rfl, hsuits.dim, hsuits.default⟩
      · rw [update_of_ne hn]
      · simp
    · rw [hpath] at hsave
      have hne := ne_slash hpath
      obtain ⟨files, hfiles, htenant⟩ := hdisk.stored ht hne
      obtain ⟨es', files', rfl, honly, hentry, hread, hindex⟩ := saveQuota_entry hquota hfiles hsave
      exact h.insert (hdisk.entry hne honly hentry ⟨hread, hquota, hindex.trans htenant.index⟩)
        ⟨.inr hpath, hsuits.dim, hsuits.default⟩

theorem data {file : EngineFile} {content : Option Bytes}
    (hstep : s.data id file content = .ok s') :
    Kept J cfg (put Call.tenant (Call.effect cfg.spec) want (.data id file content)) s' := by
  have hput : put Call.tenant (Call.effect cfg.spec) want (.data id file content) = want :=
    update_eq_self _ _
  rw [hput]
  simp only [Store.data] at hstep
  generalize hname : (if id = "" then defaultTenant else id) = name at hstep
  split_ifs at hstep with hclosed hnone
  obtain ⟨root, hchange, hstep⟩ := except_bind_eq_ok.mp hstep
  obtain rfl := ok.inj hstep
  obtain ⟨t, ht⟩ := Option.ne_none_iff_exists'.mp (by simpa using hnone)
  obtain ⟨es, hroot, hdisk⟩ := h.disk
  rw [hroot, onDisk_eq_ok] at hchange
  obtain ⟨hquota, hindex, hslash⟩ := engineFiles_ne _ file.2
  have hmem : ∃ es', root = .dir es' ∧ Disk J es' fun n => s.tenants.lookup n := by
    rcases (h.suits ht).path with rfl | hpath
    · obtain ⟨es₁, es', heq, rfl, -, hkeeps⟩ := change_ok hchange
      obtain rfl := Tree.dir.inj heq
      refine ⟨es', rfl, hdisk.atRoot hkeeps (by simpa using Ne.symm hslash) (fun _ _ => rfl) ?_⟩
      simp [ht]
    · rw [hpath] at hchange
      have hne := ne_slash hpath
      obtain ⟨x, y, es', hx, hwrite, rfl, hy, honly⟩ := Tree.edit_entry hchange
      obtain ⟨files, files', rfl, rfl, hsame, -⟩ := change_ok hwrite
      obtain ⟨files₁, hfiles, htenant⟩ := hdisk.stored ht hne
      rw [hx, Option.some.injEq, Tree.dir.injEq] at hfiles
      subst hfiles
      have hentry := hdisk.entry hne honly hy (t := t) ⟨by rw [hsame _ (Ne.symm hquota)]; exact htenant.quota,
        htenant.valid, by rw [hsame _ (Ne.symm hindex)]; exact htenant.index⟩
      have hupdate : update (fun n => s.tenants.lookup n) name (some t) = fun n => s.tenants.lookup n := by
        rw [← ht]
        exact update_eq_self name _
      exact ⟨es', rfl, hupdate ▸ hentry⟩
  exact ⟨h.cfg_eq, hmem, h.memory, h.suits, h.found⟩

theorem deleteTenant {nanos : ℤ} {left : Option Entries}
    (hstep : s.deleteTenant id nanos left = .ok s') :
    Kept J cfg (put Call.tenant (Call.effect cfg.spec) want (.deleteTenant id nanos left)) s' := by
  have hput : put Call.tenant (Call.effect cfg.spec) want (.deleteTenant id nanos left) =
      update want id none := rfl
  rw [hput]
  simp only [Store.deleteTenant] at hstep
  split_ifs at hstep with hclosed hdefault hnone
  obtain ⟨root, hrename, hstep⟩ := except_bind_eq_ok.mp hstep
  obtain ⟨t, ht⟩ := Option.ne_none_iff_exists'.mp (by simpa using hnone)
  obtain ⟨es, hroot, hdisk⟩ := h.disk
  rw [hroot, onDisk_eq_ok] at hrename
  rcases (h.suits ht).path with rfl | hpath
  · cases hrename
  · rw [hpath] at hrename
    obtain ⟨es₁, rfl, hnodup, hdeleted⟩ := hdisk.rename (ne_slash hpath) ht hrename
    cases left with
    | none =>
      obtain rfl := ok.inj hstep
      refine h.erase (by simpa using hdefault) (hdeleted _ (hnodup.kerase _) fun n hn => ?_)
      exact dlookup_kerase_ne hn
    | some es₂ =>
      obtain ⟨root, hleft, hstep⟩ := except_bind_eq_ok.mp hstep
      obtain rfl := ok.inj hstep
      obtain ⟨-, -, es', -, -, rfl, -, honly⟩ := Tree.edit_entry (onDisk_eq_ok.mp hleft)
      exact h.erase (by simpa using hdefault) (hdeleted es' (honly.nodup hnodup) honly.same)

theorem step {call : Call} (hstep : s.step J call = .ok s') :
    Kept J cfg (put Call.tenant (Call.effect cfg.spec) want call) s' := by
  cases call with
  | createTenantWithIndex id quota spec => exact h.createTenantWithIndex hstep
  | setQuota id quota => exact h.setQuota hstep
  | deleteTenant id nanos left => exact h.deleteTenant hstep
  | data id file content => exact h.data hstep
  | close =>
    obtain rfl := ok.inj hstep
    have hput : put Call.tenant (Call.effect cfg.spec) want .close = want := update_eq_self _ _
    rw [hput]
    exact ⟨h.cfg_eq, h.disk, h.memory, h.suits, h.found⟩

theorem run {calls : List Call} (hrun : EventRun.run (Store.step J) s calls = .ok s') :
    Kept J cfg (putAll Call.tenant (Call.effect cfg.spec) want calls) s' := by
  induction calls generalizing s want with
  | nil => exact ok.inj hrun ▸ h
  | cons call calls ih =>
    obtain ⟨s₁, hstep, hrest⟩ := except_bind_eq_ok.mp hrun
    exact ih (h.step hstep) hrest

end

end Kept

end Steps

section Open
variable {J : FileCodec} {s s' : Store} {cfg : Config} {es files : Entries} {look : String → Option Tenant}
  {id : String} {t : Tenant}

theorem statFile_entry : statFile (.dir es) [id] = .ok (es.dlookup id).isSome := by
  simp only [statFile, Tree.get_cons]
  cases es.dlookup id with
  | none => rfl
  | some t => rfl

theorem migrate_finished (hfiles : es.dlookup defaultTenant = some (.dir files)) (h : TenantFiles J files t) :
    migrateLegacyDefault J (.dir es) cfg =
      if rootFiles.any fun n => (es.dlookup n).isSome then .error .bothLegacyAndDefault else .ok (.dir es) := by
  have hfinished : statFile (.dir es) [defaultTenant, quotaFile] = .ok true := by
    obtain ⟨b, hquota, -⟩ := h.quota
    rw [statFile, Tree.get_of_dlookup hfiles, Tree.get_of_dlookup hquota]
    rfl
  have hfound : rootFiles.mapM (fun name => statFile (.dir es) [name]) =
      .ok (rootFiles.map fun n => (es.dlookup n).isSome) := by
    simp only [statFile_entry]
    rfl
  simp only [migrateLegacyDefault, hfound, hfinished, bind, Except.bind, any_map, comp_def, id]
  cases rootFiles.any fun n => (es.dlookup n).isSome with
  | true => rfl
  | false => rfl

theorem readDir_root : (Tree.dir es).readDir [] = .ok (es.mergeSort fun a b => decide (a.1 ≤ b.1)) := rfl

theorem mem_keys_sorted : id ∈ (es.mergeSort fun a b => decide (a.1 ≤ b.1)).keys ↔ id ∈ es.keys :=
  ((mergeSort_perm es _).map Sigma.fst).mem_iff

def Tenant.reloaded (t : Tenant) : Tenant := ⟨t.quota, ⟨t.cfg.dim, some (t.cfg.metric.getD .cosine)⟩⟩

theorem metricName_eq (cfg : Config) : cfg.metricName = (cfg.metric.getD .cosine).name := by
  obtain ⟨dim, metric⟩ := cfg
  cases metric <;> rfl

theorem metricByName_name (m : Metric) : metricByName m.name = some m := by
  cases m <;> decide

theorem Tenant.info_reloaded (t : Tenant) : t.reloaded.info = t.info := by
  simp [reloaded, info, Config.spec, metricName_eq]

theorem loadTenant_stored (hfiles : es.dlookup id = some (.dir files)) (h : TenantFiles J files t)
    (hid : isDeletedName id = false) :
    loadTenant J (.dir es) cfg ⟨id, .dir files⟩ =
      if 0 < t.cfg.dim then .ok (some t.reloaded) else .error (.inFile [id, indexFile] .badIndexSpec) := by
  obtain ⟨b, hquota, hread⟩ := h.quota
  have htenant : isTenantDir (.dir es) [id] = true := by
    simp only [isTenantDir, any_cons, cons_append, nil_append]
    rw [Tree.get_of_dlookup hfiles, Tree.get_of_dlookup hquota]
    rfl
  have hload : loadQuota J (.dir es) [id] = .ok t.quota := by
    have hfile : (Tree.dir es).readFile ([id] ++ [quotaFile]) = .ok b := by
      rw [Tree.readFile, singleton_append, Tree.get_of_dlookup hfiles, Tree.get_of_dlookup hquota]
      rfl
    rw [loadQuota, hfile]
    simp [hread]
  have hindex : loadIndex J (.dir es) [id] cfg =
      if 0 < t.cfg.dim then .ok t.reloaded.cfg else .error (.inFile [id, indexFile] .badIndexSpec) := by
    have hfile : (Tree.dir es).readFile ([id] ++ [indexFile]) = .ok (J.index.marshal t.cfg.spec) := by
      rw [Tree.readFile, singleton_append, Tree.get_of_dlookup hfiles, Tree.get_of_dlookup h.index]
      rfl
    rw [loadIndex, hfile]
    simp only [J.index.unmarshal_marshal, Config.spec, metricName_eq, metricByName_name, ← not_lt, ite_not,
      Tenant.reloaded, cons_append, nil_append]
  simp only [loadTenant, htenant, hload, hindex, h.valid, hid, Tree.isDir, bind, Except.bind]
  by_cases hdim : 0 < t.cfg.dim
  · rw [if_pos hdim, if_pos hdim]
    rfl
  · rw [if_neg hdim, if_neg hdim]
    rfl

theorem loadTenant_deleted {e : Sigma fun _ : String => Tree} {root : Tree} (h : isDeletedName e.1) :
    loadTenant J root cfg e = .ok none := by
  simp [loadTenant, h]

section Loop
variable {root : Tree} {entries : Entries} {init tenants : AList fun _ : String => Tenant}

def found (tenants : AList fun _ : String => Tenant) (id : String) : Option Tenant → AList fun _ : String => Tenant
  | none => tenants
  | some t => tenants.insert id t

theorem loadTenants_cons {e : Sigma fun _ : String => Tree} {o : Option Tenant}
    (h : loadTenant J root cfg e = .ok o) :
    loadTenants J root cfg (e :: entries) init = loadTenants J root cfg entries (found init e.1 o) := by
  rw [loadTenants, h]
  cases o <;> rfl

theorem lookup_found (o : Option Tenant) (n : String) :
    (found init id o).lookup n = if n = id then o.or (init.lookup n) else init.lookup n := by
  cases o with
  | none => simp [found]
  | some t =>
    by_cases hn : n = id
    · subst hn
      simp [found]
    · simp [found, hn, AList.lookup_insert_ne hn]

theorem loadTenants_eq_ok (g : String → Option Tenant) (init : AList fun _ : String => Tenant)
    (h : ∀ e ∈ entries, loadTenant J root cfg e = .ok (g e.1)) : ∃ tenants,
      loadTenants J root cfg entries init = .ok tenants ∧
        ∀ n, tenants.lookup n = if n ∈ entries.keys then (g n).or (init.lookup n) else init.lookup n := by
  induction entries generalizing init with
  | nil => exact ⟨init, rfl, by simp⟩
  | cons e entries ih =>
    obtain ⟨hfirst, hrest⟩ := forall_mem_cons.mp h
    obtain ⟨tenants, htenants, hlookup⟩ := ih (found init e.1 (g e.1)) hrest
    refine ⟨tenants, (loadTenants_cons hfirst).trans htenants, fun n => ?_⟩
    rw [hlookup, lookup_found, keys_cons]
    by_cases hn : n = e.1
    · subst hn
      cases g e.1 <;> simp
    · simp [hn]

theorem loadTenant_of_loadTenants (h : loadTenants J root cfg entries init = .ok tenants) :
    ∀ e ∈ entries, ∃ o, loadTenant J root cfg e = .ok o := by
  induction entries generalizing init with
  | nil => simp
  | cons e entries ih =>
    cases hload : loadTenant J root cfg e with
    | error err =>
      rw [loadTenants, hload] at h
      cases h
    | ok o =>
      rw [loadTenants_cons hload] at h
      exact forall_mem_cons.mpr ⟨⟨o, hload⟩, ih h⟩

theorem mem_of_loadTenants (h : loadTenants J root cfg entries init = .ok tenants)
    (hid : tenants.lookup id = some t) :
    init.lookup id = some t ∨ id ∈ entries.keys ∧ isDeletedName id = false := by
  induction entries generalizing init with
  | nil => exact .inl (ok.inj h ▸ hid)
  | cons e entries ih =>
    cases hload : loadTenant J root cfg e with
    | error err =>
      rw [loadTenants, hload] at h
      cases h
    | ok o =>
      rw [loadTenants_cons hload] at h
      rcases ih h with hinit | ⟨hmem, hname⟩
      · rw [lookup_found] at hinit
        split at hinit
        · next heq =>
          cases o with
          | none => exact .inl hinit
          | some u =>
            refine .inr ⟨heq ▸ mem_cons_self, Bool.eq_false_iff.mpr fun hname => ?_⟩
            rw [heq] at hname
            rw [loadTenant_deleted hname] at hload
            cases hload
        · exact .inl hinit
      · exact .inr ⟨mem_cons_of_mem _ hmem, hname⟩

end Loop

theorem rootFiles_not_deleted : ∀ n ∈ rootFiles, ¬ isDeletedName n := by decide

namespace Kept

variable {cfg' : Config} {want : String → Option (Quota × IndexSpec)}

theorem migrate (h : Kept J cfg want s) (hroot : s.root = .dir es) :
    migrateLegacyDefault J (.dir es) cfg' =
      if rootFiles.any fun n => (es.dlookup n).isSome then .error .bothLegacyAndDefault else .ok (.dir es) := by
  obtain ⟨es₁, hroot₁, hdisk⟩ := h.disk
  rw [hroot, Tree.dir.injEq] at hroot₁
  subst hroot₁
  obtain ⟨t, ht⟩ := Option.isSome_iff_exists.mp h.found
  obtain ⟨files, hfiles, htenant⟩ := hdisk.stored ht (by decide)
  exact migrate_finished hfiles htenant

theorem reopens (h : Kept J cfg want s) (hdim : 0 < cfg.dim) (hfree : ∀ id, isReserved id → want id = none) :
    ∃ tenants, openStore J s.root cfg' = .ok ⟨s.root, cfg', tenants, false⟩ ∧
      ∀ n, tenants.lookup n = (s.tenants.lookup n).map Tenant.reloaded := by
  obtain ⟨es, hroot, hdisk⟩ := h.disk
  have hlive : ∀ {id}, isReserved id → s.tenants.lookup id = none := fun {id} hid => by
    rw [← Option.map_eq_none_iff (f := Tenant.info), h.memory id]
    exact hfree id hid
  have hnames := hdisk.names (hlive (by decide))
  have hmigrate : migrateLegacyDefault J (.dir es) cfg' = .ok (.dir es) := by
    rw [h.migrate hroot, if_neg]
    rw [any_eq_true]
    rintro ⟨n, hn, hsome⟩
    have hreserved : isReserved n := by simp [isReserved, hn]
    rcases hnames n (dlookup_isSome.mp hsome) with hsome | hname
    · rw [hlive hreserved] at hsome
      cases hsome
    · exact absurd hname (rootFiles_not_deleted n hn)
  have hload : ∀ e ∈ es.mergeSort fun a b => decide (a.1 ≤ b.1), loadTenant J (.dir es) cfg' e =
      .ok ((s.tenants.lookup e.1).map Tenant.reloaded) := by
    rintro ⟨n, x⟩ he
    have hentry : es.dlookup n = some x := (mem_dlookup_iff hdisk.nodup).mpr (mem_mergeSort.mp he)
    cases hn : s.tenants.lookup n with
    | none =>
      have hkey : n ∈ es.keys := dlookup_isSome.mp (by simp [hentry])
      have hname : isDeletedName n := by simpa [hn] using hnames n hkey
      exact loadTenant_deleted hname
    | some t =>
      have hfreeName : isReserved n = false := by
        refine Bool.eq_false_iff.mpr fun hreserved => ?_
        rw [hlive hreserved] at hn
        cases hn
      simp only [isReserved, Bool.or_eq_false_iff, decide_eq_false_iff_not] at hfreeName
      obtain ⟨files, hfiles, htenant⟩ := hdisk.stored hn hfreeName.1.1
      rw [hentry, Option.some.injEq] at hfiles
      subst hfiles
      rw [loadTenant_stored hentry htenant hfreeName.2, if_pos ((h.suits hn).dim hdim)]
      rfl
  obtain ⟨tenants, htenants, hlookup⟩ :=
    loadTenants_eq_ok (fun n => (s.tenants.lookup n).map Tenant.reloaded) ∅ hload
  have hall : ∀ n, tenants.lookup n = (s.tenants.lookup n).map Tenant.reloaded := by
    intro n
    rw [hlookup]
    split
    · simp
    · next hn =>
      cases hlook : s.tenants.lookup n with
      | none => rfl
      | some t =>
        have hne : n ≠ "/" := by
          rintro rfl
          rw [hlive (by decide)] at hlook
          cases hlook
        obtain ⟨files, hfiles, -⟩ := hdisk.stored hlook hne
        rw [mem_keys_sorted, ← dlookup_isSome, hfiles] at hn
        exact absurd rfl hn
  have hdefault : (tenants.lookup defaultTenant).isSome := by
    rw [hall, Option.isSome_map]
    exact h.found
  refine ⟨tenants, ?_, hall⟩
  simp [openStore, hroot, hmigrate, readDir_root, htenants, hdefault, onDisk, Except.mapError, bind, Except.bind]

theorem info_reloaded (h : Kept J cfg want s) {tenants : AList fun _ : String => Tenant}
    (hall : ∀ n, tenants.lookup n = (s.tenants.lookup n).map Tenant.reloaded) (id : String) :
    (tenants.lookup id).map Tenant.info = want id := by
  rw [hall, Option.map_map, ← h.memory id]
  congr 1
  exact funext Tenant.info_reloaded

theorem dim_of_reopens (h : Kept J cfg want s) (hopen : openStore J s.root cfg' = .ok s') : 0 < cfg.dim := by
  obtain ⟨es, hroot, hdisk⟩ := h.disk
  obtain ⟨t, ht⟩ := Option.isSome_iff_exists.mp h.found
  obtain ⟨files, hfiles, htenant⟩ := hdisk.stored ht (by decide)
  simp only [openStore, hroot, h.migrate hroot] at hopen
  split at hopen
  · cases hopen
  · obtain ⟨_, heq, hopen⟩ := except_bind_eq_ok.mp hopen
    obtain rfl := ok.inj heq
    simp only [except_bind_eq_ok, onDisk_eq_ok] at hopen
    obtain ⟨entries, hentries, tenants, htenants, -⟩ := hopen
    obtain rfl := ok.inj (readDir_root.symm.trans hentries)
    have hmem : (⟨defaultTenant, .dir files⟩ : Sigma fun _ : String => Tree) ∈ es :=
      (mem_dlookup_iff hdisk.nodup).mp hfiles
    obtain ⟨o, hload⟩ := loadTenant_of_loadTenants htenants _ (mem_mergeSort.mpr hmem)
    rw [loadTenant_stored hfiles htenant (by decide)] at hload
    split at hload
    · next hdim => exact (h.suits ht).default rfl hdim
    · cases hload

theorem free_of_reopens (h : Kept J cfg want s) (hopen : openStore J s.root cfg' = .ok s')
    (hsame : ∀ id, (s'.tenants.lookup id).map Tenant.info = want id) {id : String} (hid : isReserved id) :
    want id = none := by
  obtain ⟨es, hroot, hdisk⟩ := h.disk
  simp only [openStore, hroot, h.migrate hroot] at hopen
  split at hopen
  · cases hopen
  · next hlegacy =>
    have hmem : ∀ {t}, s'.tenants.lookup id = some t → id ∈ es.keys ∧ isDeletedName id = false := by
      intro t ht
      obtain ⟨_, heq, hopen⟩ := except_bind_eq_ok.mp hopen
      obtain rfl := ok.inj heq
      simp only [except_bind_eq_ok, onDisk_eq_ok] at hopen
      obtain ⟨entries, hentries, tenants, htenants, hopen⟩ := hopen
      obtain rfl := ok.inj (readDir_root.symm.trans hentries)
      have hfound : ∀ {t}, tenants.lookup id = some t → id ∈ es.keys ∧ isDeletedName id = false := by
        intro t ht
        simpa [mem_keys_sorted] using mem_of_loadTenants htenants ht
      split at hopen
      · obtain rfl := ok.inj hopen
        exact hfound ht
      · obtain ⟨root, -, hopen⟩ := except_bind_eq_ok.mp hopen
        obtain rfl := ok.inj hopen
        have hne : id ≠ defaultTenant := by
          rintro rfl
          exact absurd hid (by decide)
        rw [AList.lookup_insert_ne hne] at ht
        exact hfound ht
    rw [← hsame id, Option.map_eq_none_iff]
    by_contra hsome
    obtain ⟨t, ht⟩ := Option.ne_none_iff_exists'.mp hsome
    obtain ⟨hkey, hname⟩ := hmem ht
    simp only [isReserved, Bool.or_eq_true, decide_eq_true_eq, contains_iff_mem, hname,
      Bool.false_eq_true, or_false] at hid
    rcases hid with rfl | hfile
    · exact hdisk.slash hkey
    · refine hlegacy (any_eq_true.mpr ⟨id, hfile, ?_⟩)
      exact dlookup_isSome.mpr hkey

end Kept

theorem openStore_empty : openStore J (.dir []) cfg = (do
    let root ← createFiles J (.dir []) (tenantPath defaultTenant) unlimited cfg
    .ok ⟨root, cfg, AList.insert defaultTenant ⟨unlimited, cfg⟩ ∅, false⟩) := by
  have hmigrate : migrateLegacyDefault J (.dir []) cfg = .ok (.dir []) := rfl
  have hentries : onDisk ((Tree.dir []).readDir []) = .ok [] := by
    rw [readDir_root, mergeSort_nil]
    rfl
  simp only [openStore, hmigrate, hentries, bind, Except.bind]
  rfl

theorem kept_of_open (hopen : openStore J (.dir []) cfg = .ok s) :
    Kept J cfg (fun id => if id = defaultTenant then some (unlimited, cfg.spec) else none) s := by
  have hnone : Disk J [] fun n => (∅ : AList fun _ : String => Tenant).lookup n :=
    ⟨nodupKeys_nil, by simp, by simp, by simp⟩
  obtain ⟨root, hfiles, hopen⟩ := except_bind_eq_ok.mp (openStore_empty.symm.trans hopen)
  obtain rfl := ok.inj hopen
  rw [tenantPath_default] at hfiles
  obtain ⟨es, files, rfl, honly, hentry, htenant⟩ := createFiles_entry (by decide) hfiles
  have hdisk := hnone.entry (by decide) honly hentry htenant
  have hlook := congrFun (lookup_insert ∅ defaultTenant ⟨unlimited, cfg⟩)
  refine ⟨rfl, ⟨es, rfl, lookup_insert ∅ _ _ ▸ hdisk⟩, fun id => ?_, fun {id t} ht => ?_, ?_⟩
  · rw [hlook]
    by_cases hid : id = defaultTenant
    · simp [hid, Tenant.info]
    · simp [hid]
  · rw [hlook] at ht
    by_cases hid : id = defaultTenant
    · subst hid
      rw [update_self, Option.some.injEq] at ht
      subst ht
      exact ⟨.inr tenantPath_default, fun hdim => hdim, fun _ hdim => hdim⟩
    · simp [hid] at ht
  · rw [hlook, update_self]
    rfl

end Open

/-- The tenants come back as they were exactly if the default one's dimension is positive and none of them
has an id that the root has another use for. -/
theorem reopened_as_left_iff (J : FileCodec) (cfg cfg' : Config) (calls : List Call) (s₀ s : Store)
    (hopen : openStore J (.dir []) cfg = .ok s₀) (hrun : run (Store.step J) s₀ calls = .ok s) :
    (∃ s', openStore J s.root cfg' = .ok s' ∧
      ∀ id, (s'.tenants.lookup id).map Tenant.info = expected cfg.spec calls id) ↔
    0 < cfg.dim ∧ ∀ id, isReserved id → expected cfg.spec calls id = none := by
  have hkept := (kept_of_open hopen).run hrun
  constructor
  · rintro ⟨s', hreopen, hsame⟩
    exact ⟨hkept.dim_of_reopens hreopen, fun id hid => hkept.free_of_reopens hreopen hsame hid⟩
  · rintro ⟨hdim, hfree⟩
    obtain ⟨tenants, hopen', hall⟩ := hkept.reopens hdim hfree
    exact ⟨_, hopen', hkept.info_reloaded hall⟩

section Examples

theorem countable_indexSpec : Countable IndexSpec := by
  have := countable_string
  exact Injective.countable (f := fun spec : IndexSpec => (spec.dim, spec.metric)) fun x y h => by
    cases x
    cases y
    simpa using h

theorem countable_quota : Countable Quota := by
  exact Injective.countable (f := fun q : Quota => (q.maxVectors, q.maxQPS.toNat)) fun x y h => by
    cases x
    cases y
    simpa [UInt64.toNat_inj] using h

noncomputable def anyFileCodec : FileCodec :=
  have := countable_indexSpec
  have := countable_quota
  have quota := Classical.choice (Json.exists_of_countable Quota)
  ⟨Classical.choice (Json.exists_of_countable IndexSpec), fun q => some (quota.marshal q), quota.unmarshal,
    fun q _ => ⟨_, rfl, quota.unmarshal_marshal q⟩⟩

def freshRoot (J : FileCodec) (quota : Bytes) : Tree :=
  .dir [⟨defaultTenant, .dir [⟨quotaFile, .file quota⟩, ⟨indexFile, .file (J.index.marshal ⟨1, "cosine"⟩)⟩]⟩]

def freshStore (J : FileCodec) (quota : Bytes) : Store :=
  ⟨freshRoot J quota, ⟨1, none⟩, AList.insert defaultTenant ⟨unlimited, ⟨1, none⟩⟩ ∅, false⟩

variable {J : FileCodec} {quota : Bytes}

theorem openStore_fresh (h : J.marshalQuota unlimited = some quota) :
    openStore J (.dir []) ⟨1, none⟩ = .ok (freshStore J quota) := by
  have hfiles : createFiles J (.dir []) (tenantPath defaultTenant) unlimited ⟨1, none⟩ =
      .ok (freshRoot J quota) := by
    simp only [createFiles, saveQuota, h]
    rfl
  rw [openStore_empty, hfiles]
  rfl

theorem reserved_id_lost :
    validTenantID ".deleted-x" ∧ ∃ s₀ s, openStore anyFileCodec (.dir []) ⟨1, none⟩ = .ok s₀ ∧
      run (Store.step anyFileCodec) s₀ [.createTenantWithIndex ".deleted-x" unlimited ⟨0, ""⟩] = .ok s ∧
      ¬ ∃ s', openStore anyFileCodec s.root ⟨1, none⟩ = .ok s' ∧
        ∀ n, (s'.tenants.lookup n).map Tenant.info =
          expected ⟨1, "cosine"⟩ [.createTenantWithIndex ".deleted-x" unlimited ⟨0, ""⟩] n := by
  refine ⟨by decide, ?_⟩
  obtain ⟨quota, hquota, -⟩ := anyFileCodec.quota_round_trip unlimited (by decide)
  generalize anyFileCodec = J at hquota ⊢
  have hopen := openStore_fresh hquota
  have hcreate : ∃ s, (freshStore J quota).createTenantWithIndex J ".deleted-x" unlimited ⟨0, ""⟩ =
      .ok s := by
    simp only [Store.createTenantWithIndex, createFiles, saveQuota, hquota]
    exact ⟨_, rfl⟩
  obtain ⟨s, hstep⟩ := hcreate
  have hrun : run (Store.step J) (freshStore J quota)
      [.createTenantWithIndex ".deleted-x" unlimited ⟨0, ""⟩] = .ok s := by
    rw [run_cons hstep]
    rfl
  refine ⟨_, s, hopen, hrun, ?_⟩
  rintro ⟨s', hreopen, hsame⟩
  have hkept := (kept_of_open hopen).run hrun
  have hnone := hkept.free_of_reopens hreopen hsame (by decide : isReserved ".deleted-x")
  simp [put, Call.tenant, Call.effect] at hnone

def someCalls : List Call :=
  [.createTenantWithIndex "a" ⟨5, 0⟩ ⟨2, "l2"⟩, .createTenantWithIndex "b" unlimited ⟨0, ""⟩,
    .data "a" ⟨walFile, by decide⟩ (some [1]), .setQuota "a" ⟨7, 0⟩, .deleteTenant "b" 1 none, .close]

theorem someCalls_run (m : Quota → Bytes) (h : ∀ q, J.marshalQuota q = some (m q)) :
    ∃ s, run (Store.step J) (freshStore J (m unlimited)) someCalls = .ok s := by
  simp only [run, someCalls, foldlM_cons, Store.step, Store.createTenantWithIndex, Store.setQuota, createFiles,
    saveQuota, h]
  exact ⟨_, rfl⟩

theorem created_and_deleted_reopened : ∃ s₀ s s', openStore anyFileCodec (.dir []) ⟨1, none⟩ = .ok s₀ ∧
      run (Store.step anyFileCodec) s₀ someCalls = .ok s ∧
      openStore anyFileCodec s.root ⟨3, some .dot⟩ = .ok s' ∧
      (s'.tenants.lookup "a").map Tenant.info = some (⟨7, 0⟩, ⟨2, "l2"⟩) ∧ s'.tenants.lookup "b" = none ∧
      (s'.tenants.lookup "default").map Tenant.info = some (unlimited, ⟨1, "cosine"⟩) := by
  have hm : ∃ m : Quota → Bytes, ∀ q, anyFileCodec.marshalQuota q = some (m q) := ⟨_, fun _ => rfl⟩
  obtain ⟨m, hm⟩ := hm
  have hopen := openStore_fresh (hm unlimited)
  obtain ⟨s, hrun⟩ := someCalls_run m hm
  obtain ⟨s', hreopen, hsame⟩ := (reopened_as_left_iff anyFileCodec ⟨1, none⟩ ⟨3, some .dot⟩ someCalls _ s
    hopen hrun).mpr ⟨by decide, fun id hid => by
      have hne : id ≠ "a" ∧ id ≠ "b" ∧ id ≠ "default" := by
        refine ⟨?_, ?_, ?_⟩ <;> rintro rfl <;> exact absurd hid (by decide)
      simp [expected, someCalls, put_apply, Call.tenant, Call.effect, defaultTenant, hne, Ne.symm hne.1, Ne.symm hne.2.1]⟩
  refine ⟨_, s, s', hopen, hrun, hreopen, (hsame "a").trans (by decide), ?_, (hsame "default").trans (by decide)⟩
  exact Option.map_eq_none_iff.mp ((hsame "b").trans (by decide))

end Examples

end NuclaDB.StoreRoot
