import KeyVault.KeyLockouts

/-! Reads that nobody asked about. Two runs make the same calls at the same times,
and one of them makes extra reads in between. An extra read that finds no expired
lockout leaves everything as it was except the audit trail, which no call reads. -/
namespace KeyVault

open Interleaving Lockouts

/-! ### The audit trail does not matter -/

/-- The same vault with another audit trail. -/
def SameButAudit (v w : Vault) : Prop := ∃ trail, w = { v with auditTrail := trail }

section Audit

variable (env : Environment) (v : Vault) (trail : List AuditEvent)

theorem insertKey_audit (id : KeyId) (entry : KeyEntry) :
    ({ v with auditTrail := trail } : Vault).insertKey id entry =
      ((v.insertKey id entry).1, { (v.insertKey id entry).2 with auditTrail := trail }) := by
  unfold Vault.insertKey
  dsimp only
  split <;> rfl

theorem removeKey_audit (id : KeyId) :
    ({ v with auditTrail := trail } : Vault).removeKey id =
      ((v.removeKey id).1, { (v.removeKey id).2 with auditTrail := trail }) := by
  unfold Vault.removeKey
  dsimp only
  split <;> rfl

theorem replaceKey_audit (id : KeyId) (fragments : Fragments) (metadata : KeyMetadata) :
    ({ v with auditTrail := trail } : Vault).replaceKey id fragments metadata =
      ((v.replaceKey id fragments metadata).1,
        { (v.replaceKey id fragments metadata).2 with auditTrail := trail }) := by
  unfold Vault.replaceKey
  dsimp only
  split <;> rfl

theorem keyLockedSlow_audit (name : String) :
    ({ v with auditTrail := trail } : Vault).keyLockedSlow env name =
      ((v.keyLockedSlow env name).1, { (v.keyLockedSlow env name).2 with auditTrail := trail }) := by
  unfold Vault.keyLockedSlow
  dsimp only
  split
  · rfl
  · rfl
  · split <;> rfl

theorem attemptMaster_audit (verifier : MasterVerifier) (attempt : Bytes) (opens : Bool) :
    ({ v with auditTrail := trail } : Vault).attemptMaster env verifier attempt opens =
      ((v.attemptMaster env verifier attempt opens).1,
        { (v.attemptMaster env verifier attempt opens).2 with auditTrail := trail }) := by
  unfold Vault.attemptMaster
  dsimp only
  split
  · rfl
  · split
    · rfl
    · split
      · rfl
      · split <;> rfl

theorem lockKey_audit (name : String) (deadline : Option Duration) :
    ({ v with auditTrail := trail } : Vault).lockKey env name deadline =
      (v.lockKey env name deadline).map fun out =>
        (out.1, { out.2 with auditTrail := trail }) := by
  unfold Vault.lockKey
  dsimp only
  split
  · rfl
  · split <;> rfl

end Audit

theorem sameButAudit_outcome {β : Type} {out out' : β × Vault} {trail : List AuditEvent} {ret : β}
    {v' : Vault} (haudit : out' = (out.1, { out.2 with auditTrail := trail }))
    (h : some out = some (ret, v')) : ∃ w', some out' = some (ret, w') ∧ SameButAudit v' w' := by
  rw [Option.some.injEq] at h
  rw [haudit, h]
  exact ⟨_, rfl, trail, rfl⟩

theorem perform_sameButAudit {env : Environment} (op : VaultOp) (v w : Vault) (ret : op.Ret)
    (v' : Vault) (h : SameButAudit v w) (hstep : Vault.perform env op v = some (ret, v')) :
    ∃ w', Vault.perform env op w = some (ret, w') ∧ SameButAudit v' w' := by
  obtain ⟨trail, rfl⟩ := h
  cases op with
  | insertKey id entry => exact sameButAudit_outcome (insertKey_audit v trail id entry) hstep
  | removeKey id => exact sameButAudit_outcome (removeKey_audit v trail id) hstep
  | replaceKey id fragments metadata =>
    exact sameButAudit_outcome (replaceKey_audit v trail id fragments metadata) hstep
  | keyLockedSlow name => exact sameButAudit_outcome (keyLockedSlow_audit env v trail name) hstep
  | attemptMaster verifier attempt opens =>
    exact sameButAudit_outcome (attemptMaster_audit env v trail verifier attempt opens) hstep
  | lockKey name deadline =>
    refine ⟨{ v' with auditTrail := trail }, ?_, trail, rfl⟩
    show ({ v with auditTrail := trail } : Vault).lockKey env name deadline = _
    rw [lockKey_audit, show v.lockKey env name deadline = _ from hstep]
    rfl
  | _ =>
    cases hstep
    exact ⟨_, rfl, _, rfl⟩

theorem runAlone_sameButAudit {env : Environment} {α : Type} {p : VaultProgram α}
    {v w v' : Vault} {value : α} (h : SameButAudit v w)
    (hrun : runAlone env p v = some (value, v')) :
    ∃ w', runAlone env p w = some (value, w') ∧ SameButAudit v' w' :=
  (Program.uses_of_forall (P := fun _ => True) (fun _ => trivial) p).run_related
    (fun op v w ret v' _ => perform_sameButAudit op v w ret v') h hrun

/-! ### What a read leaves behind -/

def Request.isRead : Request → Bool
  | .isKeyLockedOut _ | .withKey _ _ _ => true
  | _ => false

/-- The call found an expired lockout, and removed it. -/
def Served.expires (step : Served) : Bool :=
  match step.request.looksAt step.before with
  | some name => step.before.lockExpired name
  | none => false

section Reads

variable {env : Environment} {v : Vault} {time : Duration} {request : Request} {step : Served}

theorem keyLockedSlow_of_not_expired (env : Environment) {name : String}
    (h : v.lockExpired name = false) :
    (v.keyLockedSlow env name).2 = v := by
  unfold Vault.lockExpired at h
  unfold Vault.keyLockedSlow
  cases hlookup : v.keyLocks.lookup name with
  | none => rfl
  | some deadline =>
    cases deadline with
    | none => rfl
    | some stop =>
      rw [hlookup] at h
      dsimp only at h ⊢
      rw [if_pos (Nat.lt_of_not_le (of_decide_eq_false h))]

theorem readEntry_keeps {entry : KeyEntry} {opens : Bool} {scratch : Bytes} {result : Result Bytes}
    {w : Vault} (hrun : runAlone env (readEntry env entry opens scratch id) v = some (result, w)) :
    SameButAudit v w := by
  unfold readEntry at hrun
  cases hread : (readKey env entry.fragments opens scratch id).1 with
  | error exit =>
    rw [hread] at hrun
    cases hrun
    exact ⟨v.auditTrail, rfl⟩
  | ok bytes =>
    obtain ⟨trail, haudit⟩ := runAlone_emitAudit env v entry.name .read ""
    rw [hread] at hrun
    simp only [runAlone_bind, haudit, Option.bind_some, runAlone_pure] at hrun
    cases hrun
    exact ⟨trail, rfl⟩

theorem read_keeps (h : v.Counted env) (hserve : serve env v time request = some step)
    (hread : request.isRead = true) (hquiet : step.expires = false) :
    SameButAudit { v with clock := time } step.after := by
  obtain ⟨-, -, hrequest, hbefore, hrun⟩ := serve_eq_some hserve
  have hclocked : ({ v with clock := time } : Vault).Counted env := ⟨h.active, h.bounded⟩
  unfold Served.expires at hquiet
  rw [hrequest, hbefore] at hquiet
  generalize ({ v with clock := time } : Vault) = u at hclocked hquiet hrun
  cases request with
  | isKeyLockedOut handle =>
    obtain ⟨answer, -, hcall⟩ := runAlone_respond hrun
    rw [runAlone_isKeyLockedOut hclocked] at hcall
    simp only [Request.looksAt] at hquiet
    cases hlookup : u.keys.lookup handle with
    | none =>
      rw [hlookup] at hcall
      cases hcall
      exact ⟨_, rfl⟩
    | some entry =>
      rw [hlookup] at hcall hquiet
      have hsame := keyLockedSlow_of_not_expired env hquiet
      rw [Option.some.inj hcall] at hsame
      rw [← hsame]
      exact ⟨_, rfl⟩
  | withKey handle opens scratch =>
    obtain ⟨result, -, hcall⟩ := runAlone_respond hrun
    rw [runAlone_withKey hclocked] at hcall
    simp only [Request.looksAt] at hquiet
    by_cases hlocked : u.lockedOut = true
    · rw [if_pos hlocked] at hcall
      cases hcall
      exact ⟨_, rfl⟩
    · rw [if_neg hlocked] at hcall hquiet
      cases hlookup : u.keys.lookup handle with
      | none =>
        rw [hlookup] at hcall
        cases hcall
        exact ⟨_, rfl⟩
      | some entry =>
        rw [hlookup] at hcall hquiet
        dsimp only at hcall
        rw [keyLockedSlow_of_not_expired env hquiet] at hcall
        split at hcall
        · cases hcall
          exact ⟨_, rfl⟩
        · exact readEntry_keeps hcall
  | _ => cases hread

end Reads

/-! ### Two runs -/

def common (mixed : List (Bool × Served)) : List Served :=
  (mixed.filter fun step => !step.1).map Prod.snd

theorem extraReads_agree {env : Environment} {mixed : List (Bool × Served)} {plain : List Served}
    {v w v' w' : Vault} (hstart : ∃ clock trail, w = { v with clock := clock, auditTrail := trail })
    (hcounted : w.Counted env) (hplain : Serves env v plain v')
    (hmixed : Serves env w (mixed.map Prod.snd) w')
    (hsame : plain.map Served.call = (common mixed).map Served.call)
    (hreads : ∀ step ∈ mixed, step.1 = true → step.2.request.isRead = true)
    (hquiet : ∀ step ∈ mixed, step.1 = true → step.2.expires = false) :
    plain.map Served.response = (common mixed).map Served.response := by
  induction mixed generalizing plain v w with
  | nil =>
    rw [List.map_eq_nil_iff.mp hsame]
    rfl
  | cons first rest ih =>
    obtain ⟨extra, step⟩ := first
    obtain ⟨hserve, hrest⟩ := hmixed.head
    obtain ⟨hafter, -, -⟩ := serve_spec hcounted hserve
    have hreads' := fun other hmem => hreads other (List.mem_cons_of_mem _ hmem)
    have hquiet' := fun other hmem => hquiet other (List.mem_cons_of_mem _ hmem)
    obtain ⟨clock, trail, rfl⟩ := hstart
    cases extra with
    | true =>
      obtain ⟨trail', hkept⟩ := read_keeps hcounted hserve
        (hreads _ (List.mem_cons_self ..) rfl) (hquiet _ (List.mem_cons_self ..) rfl)
      have hnext : ∃ clock trail, step.after = { v with clock := clock, auditTrail := trail } :=
        ⟨step.time, trail', hkept⟩
      exact ih hnext hafter hplain hrest hsame hreads' hquiet'
    | false =>
      obtain ⟨served, others, rfl, hcall, hothers⟩ := List.map_eq_cons_iff.mp hsame
      obtain ⟨hserved, hlater⟩ := hplain.head
      obtain ⟨htime, hrequest⟩ := Prod.mk.inj hcall
      obtain ⟨-, -, -, -, hrun⟩ := serve_eq_some hserved
      obtain ⟨-, -, -, -, hrun'⟩ := serve_eq_some hserve
      rw [htime, hrequest] at hrun
      obtain ⟨u, hu, trail', rfl⟩ := runAlone_sameButAudit ⟨trail, rfl⟩ hrun
      rw [hu, Option.some.injEq, Prod.mk.injEq] at hrun'
      obtain ⟨hresponse, hstate⟩ := hrun'
      have hagree := ih ⟨_, trail', hstate.symm⟩ hafter hlater hrest hothers hreads' hquiet'
      show _ :: _ = _ :: _
      rw [hresponse]
      exact congrArg _ hagree

/-- Two runs that make the same calls at the same times, one of them with extra
reads: if no extra read finds an expired lockout, all common calls return the same. -/
theorem extraReads_harmless {env : Environment} {clock unixTime : Duration} {handles : Nat}
    {plain : List Served} {mixed : List (Bool × Served)} {v w : Vault}
    (hplain : Serves env (Vault.new clock unixTime handles) plain v)
    (hmixed : Serves env (Vault.new clock unixTime handles) (mixed.map Prod.snd) w)
    (hsame : plain.map Served.call = (common mixed).map Served.call)
    (hreads : ∀ step ∈ mixed, step.1 = true → step.2.request.isRead = true)
    (hquiet : ∀ step ∈ mixed, step.1 = true → step.2.expires = false) :
    plain.map Served.response = (common mixed).map Served.response :=
  extraReads_agree ⟨clock, [], rfl⟩ (counted_new env clock unixTime handles) hplain hmixed hsame
    hreads hquiet

def lockBriefly : Environment :=
  .plain { keyLockoutThreshold := 2, keyLockoutWindow := 100, keyLockoutDuration := some 10 }

def failuresAround (extra : List (Duration × Request)) : List (Duration × Request) :=
  [(0, .register "k" [1, 2, 3] (.constant 5) ⟨true, true, true⟩),
    (0, .reportFailure "k" none), (1, .reportFailure "k" none)] ++ extra ++
  [(21, .reportFailure "k" none), (22, .withKey 1 true [])]

theorem mixed_of_serveAll {env : Environment} {v w : Vault} {steps : List Served}
    {extra : Duration × Request}
    (h : serveAll env v (failuresAround [extra]) = some (steps, w)) :
    ∃ mixed, mixed.map Prod.snd = steps ∧ common mixed = steps.eraseIdx 3 ∧
      (common mixed).map Served.call = failuresAround [] ∧
      ∀ step ∈ mixed, step.1 = true → steps[3]? = some step.2 := by
  have hcalls := calls_of_serveAll h
  simp only [failuresAround, List.cons_append, List.nil_append, List.map_eq_cons_iff,
    List.map_eq_nil_iff] at hcalls
  obtain ⟨a, -, rfl, ha, b, -, rfl, hb, d, -, rfl, hd, e, -, rfl, -, f, -, rfl, hf, g, -, rfl, hg,
    rfl⟩ := hcalls
  refine ⟨[(false, a), (false, b), (false, d), (true, e), (false, f), (false, g)], rfl, rfl, ?_, ?_⟩
  · show [a.call, b.call, d.call, f.call, g.call] = _
    rw [ha, hb, hd, hf, hg]
    rfl
  · simp

theorem extraReads_harmless_early : ∃ plain mixed v w,
    Serves lockBriefly (Vault.new 0 0 0) plain v ∧
      Serves lockBriefly (Vault.new 0 0 0) (mixed.map Prod.snd) w ∧
      mixed.length = plain.length + 1 ∧
      plain.map Served.response = (common mixed).map Served.response := by
  have hplain : (serveAll lockBriefly (Vault.new 0 0 0) (failuresAround [])).map
      (fun out => out.1.length) = some 5 := by decide +kernel
  have hmixed : (serveAll lockBriefly (Vault.new 0 0 0)
      (failuresAround [(5, .isKeyLockedOut 1)])).map (fun out =>
        (out.1.length, out.1[3]?.map fun step => (step.request.isRead, step.expires))) =
      some (6, some (true, false)) := by decide +kernel
  obtain ⟨⟨plain, v⟩, hserves, hlength⟩ := Option.map_eq_some_iff.mp hplain
  obtain ⟨⟨steps, w⟩, hserves', hfacts⟩ := Option.map_eq_some_iff.mp hmixed
  obtain ⟨hlength', hextra⟩ := Prod.mk.inj hfacts
  obtain ⟨mixed, rfl, -, hcalls, hmark⟩ := mixed_of_serveAll hserves'
  obtain ⟨extra, hthird, hextra⟩ := Option.map_eq_some_iff.mp hextra
  obtain ⟨hread, hquiet⟩ := Prod.mk.inj hextra
  have hmarked : ∀ step ∈ mixed, step.1 = true → step.2 = extra := by
    intro step hmem hstep
    exact Option.some.inj ((hmark step hmem hstep).symm.trans hthird)
  refine ⟨plain, mixed, v, w, serves_of_serveAll hserves, serves_of_serveAll hserves', ?_, ?_⟩
  · rw [List.length_map] at hlength'
    rw [hlength', show plain.length = 5 from hlength]
  · apply extraReads_harmless (serves_of_serveAll hserves) (serves_of_serveAll hserves')
      ((calls_of_serveAll hserves).trans hcalls.symm)
    · intro step hmem hstep
      rw [hmarked step hmem hstep]
      exact hread
    · intro step hmem hstep
      rw [hmarked step hmem hstep]
      exact hquiet

/-- A read at time 20 finds the lockout expired and forgets the failures; without
it, the failure at time 21 locks the key again. -/
theorem extraReads_fail : ∃ plain mixed v w,
    Serves lockBriefly (Vault.new 0 0 0) plain v ∧
      Serves lockBriefly (Vault.new 0 0 0) (mixed.map Prod.snd) w ∧
      plain.map Served.call = (common mixed).map Served.call ∧
      (∀ step ∈ mixed, step.1 = true → step.2.request.isRead = true) ∧
      plain.map Served.response ≠ (common mixed).map Served.response := by
  have hplain : (serveAll lockBriefly (Vault.new 0 0 0) (failuresAround [])).map
      (fun out => out.1.map Served.response) =
      some [.handle (.ok 1), .unit, .unit, .unit, .material (fail .lockedOut)] := by
    decide +kernel
  have hmixed : (serveAll lockBriefly (Vault.new 0 0 0)
      (failuresAround [(20, .isKeyLockedOut 1)])).map (fun out =>
        ((out.1.eraseIdx 3).map Served.response, out.1[3]?.map fun step => step.request.isRead)) =
      some ([.handle (.ok 1), .unit, .unit, .unit, .material (.ok [1, 2, 3])], some true) := by
    decide +kernel
  obtain ⟨⟨plain, v⟩, hserves, hresponses⟩ := Option.map_eq_some_iff.mp hplain
  obtain ⟨⟨steps, w⟩, hserves', hfacts⟩ := Option.map_eq_some_iff.mp hmixed
  obtain ⟨hresponses', hextra⟩ := Prod.mk.inj hfacts
  obtain ⟨mixed, rfl, hcommon, hcalls, hmark⟩ := mixed_of_serveAll hserves'
  refine ⟨plain, mixed, v, w, serves_of_serveAll hserves, serves_of_serveAll hserves',
    (calls_of_serveAll hserves).trans hcalls.symm, ?_, ?_⟩
  · intro step hmem hstep
    dsimp only at hextra
    rw [hmark step hmem hstep] at hextra
    exact Option.some.inj hextra
  · rw [hcommon, show plain.map Served.response = _ from hresponses,
      show ((mixed.map Prod.snd).eraseIdx 3).map Served.response = _ from hresponses']
    decide

end KeyVault
