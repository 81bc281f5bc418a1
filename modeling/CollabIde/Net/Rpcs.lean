import CollabIde.Net.Lazy

/-!
# Each call is served at most once

Every goroutine of the server, on whatever connection, is the one of one call of `RPC`, with its
method and its arguments, and `RPC` returns true only with what that goroutine has got
(`rpcs_match`): a request is handled at most once and its reply delivered at most once, as `Cluster`
takes for granted. A run of the two sides ends, with every call returned (`rpcs_return`).
-/

namespace CollabIde

namespace LazyClient

variable {B : Type}

variable {marshall : String → B → B} {init : B} {s s' : LazyClient B}

/-! ## The connections -/

/-- The calls of the connections are still there, as they are once they have returned. -/
def Keeps (cs cs' : List (Demux B)) : Prop :=
  ∀ (c k : ℕ) (d : Demux B) (call : Demux.Call B), cs[c]? = some d → d.calls[k]? = some call →
    ∃ (d' : Demux B) (call' : Demux.Call B), cs'[c]? = some d' ∧ d'.calls[k]? = some call' ∧
      call'.req = call.req ∧ (call.phase.Done → call' = call)

theorem Keeps.refl (cs : List (Demux B)) : Keeps cs cs :=
  fun _ _ d call hd hk => ⟨d, call, hd, hk, rfl, fun _ => rfl⟩

theorem Keeps.append (cs : List (Demux B)) (d : Demux B) : Keeps cs (cs ++ [d]) :=
  fun _ _ d call hd hk =>
    ⟨d, call, by rw [List.getElem?_append_left (List.getElem?_eq_some_iff.mp hd).1, hd], hk, rfl,
      fun _ => rfl⟩

/-- One connection takes a step. -/
theorem Keeps.set {cs : List (Demux B)} {c : ℕ} {d d' : Demux B} (hd : cs[c]? = some d)
    (h : ∀ (k : ℕ) (call : Demux.Call B), d.calls[k]? = some call →
      ∃ call' : Demux.Call B, d'.calls[k]? = some call' ∧ call'.req = call.req ∧
        (call.phase.Done → call' = call)) : Keeps cs (cs.set c d') := by
  intro c₀ k d₀ call hd₀ hk
  rw [getElem?_set_of hd]
  split
  · rename_i hc
    rw [hc, hd, Option.some.injEq] at hd₀
    obtain ⟨call', hk', hreq, hdone⟩ := h k call (hd₀ ▸ hk)
    exact ⟨d', call', rfl, hk', hreq, hdone⟩
  · exact ⟨d₀, call, hd₀, hk, rfl, fun _ => rfl⟩

/-- A connection goes on. -/
theorem calls_of_step {d d' : Demux B} {x : Demux.Action B} (h : d.step x = some d')
    (hx : x.isCall = false) : d'.calls.length = d.calls.length ∧
      ∀ (k : ℕ) (call : Demux.Call B), d.calls[k]? = some call →
        ∃ call' : Demux.Call B, d'.calls[k]? = some call' ∧ call'.req = call.req ∧
          (call.phase.Done → call' = call) := by
  have hsame (hc : d'.calls = d.calls) : d'.calls.length = d.calls.length ∧
      ∀ (k : ℕ) (call : Demux.Call B), d.calls[k]? = some call →
        ∃ call' : Demux.Call B, d'.calls[k]? = some call' ∧ call'.req = call.req ∧
          (call.phase.Done → call' = call) :=
    ⟨congrArg List.length hc, fun k call hk => ⟨call, hc ▸ hk, rfl, fun _ => rfl⟩⟩
  have hset {k : ℕ} {call call' : Demux.Call B} (hk : d.calls[k]? = some call)
      (hc : d'.calls = d.calls.set k call') (hreq : call'.req = call.req)
      (hopen : ¬ call.phase.Done) : d'.calls.length = d.calls.length ∧
        ∀ (k : ℕ) (call : Demux.Call B), d.calls[k]? = some call →
          ∃ call' : Demux.Call B, d'.calls[k]? = some call' ∧ call'.req = call.req ∧
            (call.phase.Done → call' = call) := by
    refine ⟨by rw [hc, List.length_set], fun k₀ call₀ hk₀ => ?_⟩
    rw [hc, getElem?_set_of hk]
    split
    · rename_i heq
      rw [heq, hk, Option.some.injEq] at hk₀
      subst hk₀
      exact ⟨call', rfl, hreq, fun hdone => absurd hdone hopen⟩
    · exact ⟨call₀, hk₀, rfl, fun _ => rfl⟩
  cases Demux.stepped h with
  | call => cases hx
  | tag hk => exact hset hk rfl rfl id
  | refuse hk _ => exact hset hk rfl rfl id
  | put hk _ => exact hset hk rfl rfl id
  | write hk => exact hset hk rfl rfl id
  | deliver _ hk => exact hset hk rfl rfl id
  | readReply _ _ => exact hsame (Demux.reply_calls (s := { d with replies := _ }) _ _ _).1
  | failNext _ => exact hsame (Demux.reply_calls (s := d) _ _ _).1
  | _ => exact hsame rfl

/-! ## The calls -/

/-- A call moves on where it is. -/
theorem Moves.place_eq {p p' : Phase B} {clnt : Option ℕ} (h : s.Moves p p' clnt) :
    p'.place = p.place := by
  cases h <;> rfl

theorem Moves.clnt_eq {p p' : Phase B} {clnt : Option ℕ} (h : s.Moves p p' clnt) :
    clnt = s.clnt ∨ clnt = none := by
  cases h with
  | drop =>
    split
    · exact .inr rfl
    · exact .inl rfl
  | _ => exact .inl rfl

variable (marshall init s) in
/-- Every call of `SendReceive` is that of one call of `RPC`. -/
structure Placed : Prop where
  conns : ∀ (c : ℕ) (d : Demux B), s.conns[c]? = some d →
    (Demux.machine init).Reach Demux.Counts d
  clnt : ∀ c ∈ s.clnt, c < s.conns.length
  dialed : ∀ (i c : ℕ) (r : Rpc B), s.calls[i]? = some r → r.phase = .dialed c →
    c < s.conns.length
  placed : ∀ (i c k : ℕ) (r : Rpc B), s.calls[i]? = some r → r.phase.place = some (c, k) →
    ∃ (d : Demux B) (call : Demux.Call B), s.conns[c]? = some d ∧ d.calls[k]? = some call ∧
      call.req = marshall r.svcMeth r.args
  inj : ∀ (i i' : ℕ) (r r' : Rpc B) (p : ℕ × ℕ), s.calls[i]? = some r → s.calls[i']? = some r' →
    r.phase.place = some p → r'.phase.place = some p → i = i'
  all : ∀ (c k : ℕ) (d : Demux B) (call : Demux.Call B), s.conns[c]? = some d →
    d.calls[k]? = some call → ∃ (i : ℕ) (r : Rpc B), s.calls[i]? = some r ∧
      r.phase.place = some (c, k)
  answered : ∀ (i : ℕ) (r : Rpc B) place rep, s.calls[i]? = some r →
    r.phase = .done place rep true → ∃ (c k : ℕ) (d : Demux B) (call : Demux.Call B),
      place = some (c, k) ∧ s.conns[c]? = some d ∧ d.calls[k]? = some call ∧
        call.phase = .returned ⟨rep, true, false⟩
  dropped : ∀ (i c k : ℕ) (r : Rpc B) rep, s.calls[i]? = some r →
    r.phase = .done (some (c, k)) rep false → s.clnt ≠ some c

namespace Placed

theorem initial : Placed marshall init (⟨[], none, []⟩ : LazyClient B) where
  conns _ _ h := by cases h
  clnt _ h := by cases h
  dialed _ _ _ h := by cases h
  placed _ _ _ _ h := by cases h
  inj _ _ _ _ _ h := by cases h
  all _ _ _ _ h := by cases h
  answered _ _ _ _ h := by cases h
  dropped _ _ _ _ _ h := by cases h

/-- A call is where it was. -/
theorem placed_of_keeps (h : Placed marshall init s) (hkeeps : Keeps s.conns s'.conns)
    {i c k : ℕ} {r : Rpc B} (hi : s.calls[i]? = some r) (hp : r.phase.place = some (c, k)) :
    ∃ (d : Demux B) (call : Demux.Call B), s'.conns[c]? = some d ∧ d.calls[k]? = some call ∧
      call.req = marshall r.svcMeth r.args := by
  obtain ⟨d, call, hd, hk, hreq⟩ := h.placed i c k r hi hp
  obtain ⟨d', call', hd', hk', hreq', -⟩ := hkeeps c k d call hd hk
  exact ⟨d', call', hd', hk', hreq'.trans hreq⟩

theorem answered_of_keeps (h : Placed marshall init s) (hkeeps : Keeps s.conns s'.conns)
    {i : ℕ} {r : Rpc B} {place : Option (ℕ × ℕ)} {rep : Option B} (hi : s.calls[i]? = some r)
    (hp : r.phase = .done place rep true) :
    ∃ (c k : ℕ) (d : Demux B) (call : Demux.Call B), place = some (c, k) ∧
      s'.conns[c]? = some d ∧ d.calls[k]? = some call ∧
        call.phase = .returned ⟨rep, true, false⟩ := by
  obtain ⟨c, k, d, call, hplace, hd, hk, hphase⟩ := h.answered i r place rep hi hp
  obtain ⟨d', call', hd', hk', -, hdone⟩ := hkeeps c k d call hd hk
  rw [hdone (by rw [hphase]; trivial)] at hk'
  exact ⟨c, k, d', call, hplace, hd', hk', hphase⟩

/-- Where a finished call has been. -/
theorem lt_of_done (h : Placed marshall init s) {i c k : ℕ} {r : Rpc B}
    (hi : s.calls[i]? = some r) (hp : r.phase.place = some (c, k)) : c < s.conns.length := by
  obtain ⟨d, call, hd, -, -⟩ := h.placed i c k r hi hp
  exact (List.getElem?_eq_some_iff.mp hd).1

/-- One call moves on, and the connections are as they were. -/
theorem of_move {i : ℕ} {r : Rpc B} {p : Phase B} {clnt : Option ℕ} (h : Placed marshall init s)
    (hi : s.calls[i]? = some r) (hm : s.Moves r.phase p clnt) :
    Placed marshall init { s.setPhase i r p with clnt := clnt } := by
  -- the calls, with their phases before
  have hold {j : ℕ} {r' : Rpc B} (hj : (s.calls.set i { r with phase := p })[j]? = some r') :
      ∃ r₀, s.calls[j]? = some r₀ ∧ r'.phase.place = r₀.phase.place ∧ r'.svcMeth = r₀.svcMeth ∧
        r'.args = r₀.args ∧ (r₀ = r' ∨ r₀ = r ∧ r'.phase = p) := by
    rw [getElem?_set_of hi] at hj
    split at hj
    · rename_i hji
      cases hj
      exact ⟨r, hji ▸ hi, hm.place_eq, rfl, rfl, .inr ⟨rfl, rfl⟩⟩
    · exact ⟨r', hj, rfl, rfl, rfl, .inl rfl⟩
  refine ⟨h.conns, fun c hc => ?_, fun j c r' hj hp => ?_, fun j c k r' hj hp => ?_,
    fun j j' r₁ r₂ q hj hj' hp hp' => ?_, fun c k d call hd hk => ?_,
    fun j r' place rep hj hp => ?_, fun j c k r' rep hj hp => ?_⟩
  · obtain hclnt | hclnt := hm.clnt_eq
    · exact h.clnt c (hclnt ▸ hc)
    · rw [show ({ s.setPhase i r p with clnt := clnt } : LazyClient B).clnt = none from hclnt] at hc
      cases hc
  · obtain ⟨r₀, hj₀, -, -, -, rfl | ⟨rfl, hphase⟩⟩ := hold hj
    · exact h.dialed j c r₀ hj₀ hp
    · rw [hphase] at hp
      subst hp
      cases hm' : r₀.phase <;> rw [hm'] at hm <;> cases hm
      rename_i hclnt
      exact h.clnt c hclnt
  · obtain ⟨r₀, hj, hplace, hmeth, hargs, -⟩ := hold hj
    rw [hmeth, hargs]
    exact h.placed j c k r₀ hj (hplace.symm.trans hp)
  · obtain ⟨r₃, hj, hplace, -⟩ := hold hj
    obtain ⟨r₄, hj', hplace', -⟩ := hold hj'
    exact h.inj j j' r₃ r₄ q hj hj' (hplace.symm.trans hp) (hplace'.symm.trans hp')
  · obtain ⟨j, r', hj, hp⟩ := h.all c k d call hd hk
    by_cases hji : j = i
    · subst hji
      cases hi.symm.trans hj
      exact ⟨j, { r with phase := p }, by
        rw [show ({ s.setPhase j r p with clnt := clnt } : LazyClient B).calls = s.calls.set j _
          from rfl, getElem?_set_of hi, if_pos rfl], hm.place_eq.trans hp⟩
    · exact ⟨j, r', by
        rw [show ({ s.setPhase i r p with clnt := clnt } : LazyClient B).calls = s.calls.set i _
          from rfl, getElem?_set_of hi, if_neg hji, hj], hp⟩
  · obtain ⟨r₀, hj₀, -, -, -, rfl | ⟨rfl, hphase⟩⟩ := hold hj
    · exact h.answered j r₀ place rep hj₀ hp
    · rw [hphase] at hp
      subst hp
      cases hm' : r₀.phase <;> rw [hm'] at hm <;> cases hm
      rename_i hd hk hreply
      exact ⟨_, _, _, _, rfl, hd, hk, hreply⟩
  · obtain ⟨r₀, hj₀, -, -, -, rfl | ⟨rfl, hphase⟩⟩ := hold hj
    · obtain hclnt | hclnt := hm.clnt_eq
      · exact hclnt ▸ h.dropped j c k r₀ rep hj₀ hp
      · change clnt ≠ some c
        rw [hclnt]
        rintro ⟨⟩
    · rw [hphase] at hp
      subst hp
      cases hm' : r₀.phase <;> rw [hm'] at hm <;> cases hm
      change (if s.clnt = some c then none else s.clnt) ≠ some c
      split
      · rintro ⟨⟩
      · assumption

/-- A new call of `RPC`. -/
theorem rpc (h : Placed marshall init s) (svcMeth : String) (args : B) :
    Placed marshall init { s with calls := s.calls ++ [⟨svcMeth, args, .entered⟩] } := by
  have hold {j : ℕ} {r : Rpc B} (hj : (s.calls ++ [⟨svcMeth, args, .entered⟩])[j]? = some r) :
      s.calls[j]? = some r ∨ r.phase = .entered := by
    rw [List.getElem?_append] at hj
    split at hj
    · exact .inl hj
    · exact .inr (List.mem_singleton.mp (List.mem_of_getElem? hj) ▸ rfl)
  have hplace {r : Rpc B} {p : ℕ × ℕ} (hr : r.phase = .entered) : r.phase.place ≠ some p := by
    rw [hr]
    rintro ⟨⟩
  refine ⟨h.conns, h.clnt, fun j c r hj hp => ?_, fun j c k r hj hp => ?_,
    fun j j' r r' q hj hj' hp hp' => ?_, fun c k d call hd hk => ?_,
    fun j r place rep hj hp => ?_, fun j c k r rep hj hp => ?_⟩
  · obtain hj | hr := hold hj
    · exact h.dialed j c r hj hp
    · cases hr.symm.trans hp
  · exact h.placed j c k r ((hold hj).resolve_right fun hr => hplace hr hp) hp
  · exact h.inj j j' r r' q ((hold hj).resolve_right fun hr => hplace hr hp)
      ((hold hj').resolve_right fun hr => hplace hr hp') hp hp'
  · obtain ⟨j, r, hj, hp⟩ := h.all c k d call hd hk
    exact ⟨j, r, by rw [List.getElem?_append_left (List.getElem?_eq_some_iff.mp hj).1, hj], hp⟩
  · obtain hj | hr := hold hj
    · exact h.answered j r place rep hj hp
    · cases hr.symm.trans hp
  · obtain hj | hr := hold hj
    · exact h.dropped j c k r rep hj hp
    · cases hr.symm.trans hp

/-- The connections go on, and no call of `SendReceive` is new. -/
theorem of_conns {cs : List (Demux B)} {clnt : Option ℕ} (h : Placed marshall init s)
    (hkeeps : Keeps s.conns cs) (hlen : s.conns.length ≤ cs.length)
    (hconns : ∀ (c : ℕ) (d : Demux B), cs[c]? = some d → (Demux.machine init).Reach Demux.Counts d)
    (hcalls : ∀ (c k : ℕ) (d' : Demux B) (call' : Demux.Call B), cs[c]? = some d' →
      d'.calls[k]? = some call' → ∃ (d : Demux B) (call : Demux.Call B), s.conns[c]? = some d ∧
        d.calls[k]? = some call)
    (hclnt : ∀ c ∈ clnt, c ∈ s.clnt ∨ s.conns.length ≤ c ∧ c < cs.length) :
    Placed marshall init { s with conns := cs, clnt := clnt } := by
  refine ⟨hconns, fun c hc => ?_, fun i c r hi hp => (h.dialed i c r hi hp).trans_le hlen,
    fun i c k r hi hp => h.placed_of_keeps hkeeps hi hp, h.inj, fun c k d' call' hd hk => ?_,
    fun i r place rep hi hp => h.answered_of_keeps hkeeps hi hp, fun i c k r rep hi hp heq => ?_⟩
  · obtain hc | hc := hclnt c hc
    · exact (h.clnt c hc).trans_le hlen
    · exact hc.2
  · obtain ⟨d, call, hd, hk⟩ := hcalls c k d' call' hd hk
    exact h.all c k d call hd hk
  · obtain hc | hc := hclnt c heq
    · exact h.dropped i c k r rep hi hp hc
    · have hlt := h.lt_of_done hi (show r.phase.place = some (c, k) by rw [hp]; rfl)
      omega

/-- A connection takes a step. -/
theorem conn {c : ℕ} {d d' : Demux B} {x : Demux.Action B} (h : Placed marshall init s)
    (hd : s.conns[c]? = some d) (hst : d.step x = some d') (hx : x.isCall = false)
    (hcounts : d.Counts x) : Placed marshall init { s with conns := s.conns.set c d' } := by
  obtain ⟨hlen, hcalls⟩ := calls_of_step hst hx
  refine h.of_conns (.set hd hcalls) (by rw [List.length_set]) (fun c₀ d₀ hd₀ => ?_)
    (fun c₀ k d₀ call₀ hd₀ hk => ?_) fun c₀ hc => .inl hc
  · rw [getElem?_set_of hd] at hd₀
    split at hd₀
    · cases hd₀
      exact .step (h.conns c d hd) hcounts hst
    · exact h.conns c₀ d₀ hd₀
  · rw [getElem?_set_of hd] at hd₀
    split at hd₀
    · rename_i heq
      cases hd₀
      have hk := (List.getElem?_eq_some_iff.mp hk).1
      rw [hlen] at hk
      exact ⟨d, _, heq ▸ hd, List.getElem?_eq_getElem hk⟩
    · exact ⟨d₀, call₀, hd₀, hk⟩

/-- A new connection. -/
theorem dial (h : Placed marshall init s) : Placed marshall init
    { s with conns := s.conns ++ [.initial init], clnt := some s.conns.length } := by
  have hold {c : ℕ} {d : Demux B} (hd : (s.conns ++ [.initial init])[c]? = some d) :
      s.conns[c]? = some d ∨ d = .initial init := by
    rw [List.getElem?_append] at hd
    split at hd
    · exact .inl hd
    · exact .inr (List.mem_singleton.mp (List.mem_of_getElem? hd))
  refine h.of_conns (.append s.conns _) ?_ (fun c d hd => ?_) (fun c k d call hd hk => ?_) ?_
  · rw [List.length_append]
    exact Nat.le_add_right _ _
  · obtain hd | rfl := hold hd
    · exact h.conns c d hd
    · exact .init rfl
  · obtain hd | rfl := hold hd
    · exact ⟨d, call, hd, hk⟩
    · cases hk
  · rintro c ⟨⟩
    refine .inr ⟨le_rfl, ?_⟩
    rw [List.length_append]
    exact Nat.lt_succ_self _

/-- A call enters `SendReceive`. -/
theorem send {i c : ℕ} {r : Rpc B} {d d' : Demux B} (h : Placed marshall init s)
    (hi : s.calls[i]? = some r) (hp : r.phase = .dialed c) (hd : s.conns[c]? = some d)
    (hst : d.step (.call (marshall r.svcMeth r.args)) = some d') : Placed marshall init
      { s.setPhase i r (.sent c d.calls.length) with conns := s.conns.set c d' } := by
  cases hst
  have hcalls (k : ℕ) (call : Demux.Call B) (hk : d.calls[k]? = some call) :
      (d.calls ++ [⟨marshall r.svcMeth r.args, 0, .entered⟩])[k]? = some call := by
    rw [List.getElem?_append_left (List.getElem?_eq_some_iff.mp hk).1, hk]
  have hkeeps : Keeps s.conns (s.conns.set c
      { d with calls := d.calls ++ [⟨marshall r.svcMeth r.args, 0, .entered⟩] }) :=
    .set hd fun k call hk => ⟨call, hcalls k call hk, rfl, fun _ => rfl⟩
  -- the place of the call is new
  have hnew {j k : ℕ} {r' : Rpc B} (hj : s.calls[j]? = some r')
      (hplace : r'.phase.place = some (c, k)) : k < d.calls.length := by
    obtain ⟨d₀, call, hd₀, hk, -⟩ := h.placed j c k r' hj hplace
    cases hd.symm.trans hd₀
    exact (List.getElem?_eq_some_iff.mp hk).1
  have hold {j : ℕ} {r' : Rpc B}
      (hj : (s.calls.set i { r with phase := .sent c d.calls.length })[j]? = some r') :
      j = i ∧ r' = { r with phase := .sent c d.calls.length } ∨ s.calls[j]? = some r' := by
    rw [getElem?_set_of hi] at hj
    split at hj
    · rename_i hji
      cases hj
      exact .inl ⟨hji, rfl⟩
    · exact .inr hj
  refine ⟨fun c₀ d₀ hd₀ => ?_, fun c₀ hc => ?_, fun j c₀ r' hj hphase => ?_,
    fun j c₀ k r' hj hplace => ?_, fun j j' r₁ r₂ q hj hj' hq hq' => ?_,
    fun c₀ k d₀ call hd₀ hk => ?_, fun j r' place rep hj hphase => ?_,
    fun j c₀ k r' rep hj hphase => ?_⟩
  · change (s.conns.set c _)[c₀]? = some d₀ at hd₀
    rw [getElem?_set_of hd] at hd₀
    split at hd₀
    · cases hd₀
      exact .step (x := .call _) (h.conns c d hd) trivial rfl
    · exact h.conns c₀ d₀ hd₀
  · change c₀ < (s.conns.set c _).length
    rw [List.length_set]
    exact h.clnt c₀ hc
  · change c₀ < (s.conns.set c _).length
    rw [List.length_set]
    obtain ⟨-, rfl⟩ | hj := hold hj
    · cases hphase
    · exact h.dialed j c₀ r' hj hphase
  · obtain ⟨-, rfl⟩ | hj := hold hj
    · cases hplace
      refine ⟨_, ⟨marshall r.svcMeth r.args, 0, .entered⟩, (getElem?_set_of hd).trans (if_pos rfl),
        ?_, rfl⟩
      rw [List.getElem?_append_right le_rfl, Nat.sub_self]
      rfl
    · exact h.placed_of_keeps hkeeps hj hplace
  · obtain ⟨hji, rfl⟩ | hj₁ := hold hj
    · obtain ⟨hji', -⟩ | hj₂ := hold hj'
      · rw [hji, hji']
      · cases hq
        exact absurd (hnew hj₂ hq') (lt_irrefl _)
    · obtain ⟨-, rfl⟩ | hj₂ := hold hj'
      · cases hq'
        exact absurd (hnew hj₁ hq) (lt_irrefl _)
      · exact h.inj j j' r₁ r₂ q hj₁ hj₂ hq hq'
  · have hcall : (c₀ = c ∧ k = d.calls.length) ∨
        ∃ (d : Demux B) (call : Demux.Call B), s.conns[c₀]? = some d ∧ d.calls[k]? = some call := by
      change (s.conns.set c _)[c₀]? = some d₀ at hd₀
      rw [getElem?_set_of hd] at hd₀
      split at hd₀
      · rename_i heq
        cases hd₀
        have hlt := (List.getElem?_eq_some_iff.mp hk).1
        rw [List.length_append, List.length_singleton] at hlt
        by_cases hk' : k = d.calls.length
        · exact .inl ⟨heq, hk'⟩
        · exact .inr ⟨d, _, heq ▸ hd, List.getElem?_eq_getElem (by omega)⟩
      · exact .inr ⟨d₀, call, hd₀, hk⟩
    obtain ⟨rfl, rfl⟩ | ⟨d₁, call₁, hd₁, hk₁⟩ := hcall
    · exact ⟨i, { r with phase := .sent c₀ d.calls.length },
        (getElem?_set_of hi).trans (if_pos rfl), rfl⟩
    · obtain ⟨j, r', hj, hplace⟩ := h.all c₀ k d₁ call₁ hd₁ hk₁
      refine ⟨j, r', (getElem?_set_of hi).trans ?_, hplace⟩
      rw [if_neg, hj]
      rintro rfl
      cases hi.symm.trans hj
      rw [hp] at hplace
      cases hplace
  · obtain ⟨-, rfl⟩ | hj := hold hj
    · cases hphase
    · exact h.answered_of_keeps hkeeps hj hphase
  · obtain ⟨-, rfl⟩ | hj := hold hj
    · cases hphase
    · exact h.dropped j c₀ k r' rep hj hphase

theorem step {x : Action B} (h : Placed marshall init s) (hok : s.Counts x)
    (hst : s.step marshall init x = some s') : Placed marshall init s' := by
  cases stepped hst with
  | rpc hs =>
    rw [hs]
    exact h.rpc _ _
  | dial hi hp _ hs =>
    rw [hs]
    exact h.dial.of_move hi (hp ▸ .take rfl)
  | move hi hm hs _ =>
    rw [hs]
    exact h.of_move hi hm
  | send hi hp hd hcall hs =>
    rw [hs]
    exact h.send hi hp hd hcall
  | conn hx hd hconn hs =>
    rw [hs]
    exact h.conn hd hconn hx (hok _ hd)
  | close hs =>
    rw [hs]
    exact h.of_conns (.refl s.conns) le_rfl h.conns
      (fun c k d call hd hk => ⟨d, call, hd, hk⟩) fun c hc => by cases hc

end Placed

theorem placed_of_reach (hs : (machine marshall init).Reach Counts s) : Placed marshall init s :=
  hs.invariant (fun s h => by cases h; exact .initial) fun _ _ _ _ h hok hst => h.step hok hst

/-! ## What a call gets -/

variable (s) in
/-- The goroutines of the server for a call. -/
def jobsOf (r : Rpc B) : List (Demux.Job B) :=
  match r.phase.place with
  | some (c, k) => ((s.conns[c]?).bind fun d => (d.calls[k]?).map d.jobsOf).getD []
  | none => []

theorem jobsOf_eq {c k : ℕ} {r : Rpc B} {d : Demux B} {call : Demux.Call B}
    (hp : r.phase.place = some (c, k)) (hd : s.conns[c]? = some d)
    (hk : d.calls[k]? = some call) : s.jobsOf r = d.jobsOf call := by
  simp only [jobsOf, hp, hd, hk, Option.bind_some, Option.map_some, Option.getD_some]

variable (marshall s) in
/-- Calls of `RPC` and goroutines of the server. -/
structure RpcsMatch : Prop where
  once : ∀ r ∈ s.calls, (s.jobsOf r).length ≤ 1 ∧
    ∀ j ∈ s.jobsOf r, j.req = marshall r.svcMeth r.args
  served : ∀ (c : ℕ) (d : Demux B), s.conns[c]? = some d → ∀ j ∈ d.jobs,
    ∃! i : ℕ, ∃ r, s.calls[i]? = some r ∧ r.phase.place.map Prod.fst = some c ∧ j ∈ s.jobsOf r
  answered : ∀ r ∈ s.calls, ∀ place rep, r.phase = .done place rep true →
    ∃ j rep', s.jobsOf r = [j] ∧ j.result = some (rep', true) ∧ rep = some rep'
  dropped : ∀ r ∈ s.calls, ∀ c k rep, r.phase = .done (some (c, k)) rep false → s.clnt ≠ some c

namespace Placed

variable (h : Placed marshall init s)
include h

theorem mapped {c : ℕ} {d : Demux B} (hd : s.conns[c]? = some d) : d.Mapped :=
  Demux.mapped_of_reach (h.conns c d hd)

theorem once {r : Rpc B} (hr : r ∈ s.calls) : (s.jobsOf r).length ≤ 1 ∧
    ∀ j ∈ s.jobsOf r, j.req = marshall r.svcMeth r.args := by
  obtain ⟨i, hi⟩ := List.mem_iff_getElem?.mp hr
  cases hp : r.phase.place with
  | none =>
    rw [jobsOf, hp]
    exact ⟨Nat.zero_le 1, fun j hj => absurd hj List.not_mem_nil⟩
  | some p =>
    obtain ⟨d, call, hd, hk, hreq⟩ := h.placed i p.1 p.2 r hi hp
    rw [jobsOf_eq hp hd hk]
    have hm := (h.mapped hd).matched
    exact ⟨hm.length_jobsOf_le call, fun j hj => (hm.req_of_mem_jobsOf hk hj).trans hreq⟩

theorem served {c : ℕ} {d : Demux B} {j : Demux.Job B} (hd : s.conns[c]? = some d)
    (hj : j ∈ d.jobs) : ∃! i : ℕ, ∃ r, s.calls[i]? = some r ∧
      r.phase.place.map Prod.fst = some c ∧ j ∈ s.jobsOf r := by
  have hm := (h.mapped hd).matched
  obtain ⟨k, call, hk, htag, -, hwritten⟩ := hm.job j hj
  obtain ⟨i, r, hi, hp⟩ := h.all c k d call hd hk
  have hmem : j ∈ d.jobsOf call := List.mem_filter.mpr ⟨hj, decide_eq_true htag.symm⟩
  refine ⟨i, ⟨r, hi, by rw [hp]; rfl, by rwa [jobsOf_eq hp hd hk]⟩, ?_⟩
  rintro i' ⟨r', hi', hc', hj'⟩
  obtain ⟨⟨c', k'⟩, hp', rfl⟩ := Option.map_eq_some_iff.mp hc'
  obtain ⟨d', call', hd', hk', -⟩ := h.placed i' c' k' r' hi' hp'
  cases hd.symm.trans hd'
  rw [jobsOf_eq hp' hd hk'] at hj'
  -- the tag of the goroutine belongs to one call of the connection
  have htag' := of_decide_eq_true (List.mem_filter.mp hj').2
  have hne : call.phase ≠ .entered := fun hentered => by
    rw [hentered] at hwritten
    exact hwritten
  have hkk := hm.tags.inj k k' call call' hk hk' (htag.trans htag')
    (hm.tags.tagged k call hk hne).1
  exact h.inj i' i r' r (c', k') hi' hi hp' (hkk ▸ hp)

theorem answered_eq {r : Rpc B} {place : Option (ℕ × ℕ)} {rep : Option B} (hr : r ∈ s.calls)
    (hphase : r.phase = .done place rep true) :
    ∃ j rep', s.jobsOf r = [j] ∧ j.result = some (rep', true) ∧ rep = some rep' := by
  obtain ⟨i, hi⟩ := List.mem_iff_getElem?.mp hr
  obtain ⟨c, k, d, call, rfl, hd, hk, hreply⟩ := h.answered i r place rep hi hphase
  rw [jobsOf_eq (by rw [hphase]; rfl) hd hk]
  obtain hfail | ⟨j, rep', ok, hj, hresult, heq⟩ := (h.mapped hd).returned_eq hk hreply
  · cases hfail
  · cases heq
    exact ⟨j, rep', hj, hresult, rfl⟩

end Placed

/-- **At most once**: a call of `RPC` is served once or not at all, over all connections, as it has
been made, and returns true only with what the server has got for it. A connection on which a call
has failed is not used again. -/
theorem rpcs_match (hs : (machine marshall init).Reach Counts s) : s.RpcsMatch marshall := by
  have h := placed_of_reach hs
  refine ⟨fun r hr => h.once hr, fun c d hd j hj => h.served hd hj,
    fun r hr place rep hp => h.answered_eq hr hp, fun r hr c k rep hp => ?_⟩
  obtain ⟨i, hi⟩ := List.mem_iff_getElem?.mp hr
  exact h.dropped i c k r rep hi hp

/-- The first connection breaks off when its request has been served; the second call dials again. -/
def redial : List (Action ℕ) :=
  [.rpc "Raft.RequestVote" 5, .rpc "Raft.RequestVote" 6, .take 0 true, .send 0, .conn 0 (.tag 0),
    .conn 0 (.put 0), .conn 0 (.write 0), .conn 0 .accept, .conn 0 .readRequest,
    .conn 0 (.serve 0 50 true), .conn 0 (.cut 0 0), .conn 0 .readErr, .conn 0 .closeMap,
    .conn 0 (.list [1]), .conn 0 .failNext, .conn 0 .deliver, .receive 0, .drop 0, .take 1 true,
    .send 1, .conn 1 (.tag 0), .conn 1 (.put 0), .conn 1 (.write 0), .conn 1 .accept,
    .conn 1 .readRequest, .conn 1 (.serve 0 60 true), .conn 1 (.answer 0), .conn 1 .readReply,
    .conn 1 .deliver, .receive 1]

theorem rpcs_match_redial : ∃ s : LazyClient ℕ,
    (s.calls.map Rpc.phase, s.conns.map fun d => d.jobs.map Demux.Job.req) =
      ([.done (some (0, 0)) none false, .done (some (1, 0)) (some 60) true], [[105], [106]]) ∧
    s.RpcsMatch fun _ args => 100 + args := by
  obtain ⟨s, hs, hv⟩ := (machine (fun _ args => 100 + args) 9).reach_of_run Counts
    (f := fun s => (s.calls.map Rpc.phase, s.conns.map fun d => d.jobs.map Demux.Job.req))
    (v := ([.done (some (0, 0)) none false, .done (some (1, 0)) (some 60) true], [[105], [106]]))
    redial rfl (by decide +kernel)
  exact ⟨s, hv, rpcs_match hs⟩

/-! ## Every call returns -/

/-- A step of the two sides: not a new call, nor the end of a connection. -/
def Action.internal : Action B → Bool
  | .rpc .. | .close => false
  | .conn _ x => x.internal
  | _ => true

variable (marshall init s) in
/-- Something can still be done. -/
def Can : Prop := ∃ x : Action B, x.internal = true ∧ (s.step marshall init x).isSome

/-- `RPC` has returned. -/
def Phase.Done : Phase B → Prop
  | .done .. => True
  | _ => False

theorem can_of_rpc (h : Placed marshall init s) {i : ℕ} {r : Rpc B}
    (hi : s.calls[i]? = some r) (hr : ¬ r.phase.Done) : s.Can marshall init := by
  cases hp : r.phase with
  | entered =>
    refine ⟨.take i false, rfl, ?_⟩
    simp only [step, take, hi, hp]
    cases s.clnt <;> rfl
  | dialed c =>
    have hc := h.dialed i c r hi hp
    refine ⟨.send i, rfl, ?_⟩
    simp only [step, send, hi, hp, List.getElem?_eq_getElem hc]
    rfl
  | sent c k =>
    obtain ⟨d, call, hd, hk, -⟩ := h.placed i c k r hi (by rw [hp]; rfl)
    by_cases hdone : call.phase.Done
    · refine ⟨.receive i, rfl, ?_⟩
      simp only [step, receive, hi, hp, hd, Option.bind_eq_bind, Option.bind_some, hk]
      cases hphase : call.phase with
      | returned reply =>
        dsimp only
        split
        · rfl
        · split <;> rfl
      | refused => rfl
      | _ =>
        rw [hphase] at hdone
        exact hdone.elim
    · obtain ⟨x, hx, hstep⟩ := Demux.can_of_call (.of_reach (h.conns c d hd)) hk hdone
      obtain ⟨d', hstep⟩ := Option.isSome_iff_exists.mp hstep
      have hcall : x.isCall = false := by
        cases x with
        | call => cases hx
        | _ => rfl
      refine ⟨.conn c x, hx, ?_⟩
      simp only [step, hcall, hd, Option.bind_eq_bind, Option.bind_some, hstep]
      rfl
  | failed c k rep =>
    refine ⟨.drop i, rfl, ?_⟩
    simp only [step, drop, hi, hp]
    rfl
  | done place rep ok =>
    rw [hp] at hr
    exact absurd trivial hr

/-- A call may have to dial, and to call `SendReceive`. -/
def Phase.work : Phase B → ℕ
  | .entered => 24
  | .dialed _ => 13
  | .sent .. => 2
  | .failed .. => 1
  | .done .. => 0

variable (s) in
/-- What the two sides have still to do, at most. -/
def work : ℕ := (s.conns.map Demux.work).sum + (s.calls.map fun r => r.phase.work).sum

theorem work_initial : (Demux.initial init).work = 10 := rfl

theorem work_call {d d' : Demux B} {req : B} (h : d.step (.call req) = some d') :
    d'.work = d.work + 10 := by
  cases h
  simp only [Demux.work, List.map_append, List.map_singleton, List.sum_append, List.sum_singleton,
    Demux.CallPhase.work]
  omega

theorem Moves.work_lt {p p' : Phase B} {clnt : Option ℕ} (h : s.Moves p p' clnt) :
    p'.work < p.work := by
  cases h <;> simp only [Phase.work] <;> omega

theorem work_lt {x : Action B} (h : s.step marshall init x = some s') (hx : x.internal = true) :
    s'.work < s.work := by
  cases stepped h with
  | rpc _ => cases hx
  | @dial i r hi hp _ hs =>
    have hsum := Demux.sum_set (b := { r with phase := .dialed s.conns.length }) hi
      fun r => r.phase.work
    rw [hs]
    simp only [work, setPhase, List.map_append, List.map_singleton, List.sum_append,
      List.sum_singleton, work_initial, hp, Phase.work] at hsum ⊢
    omega
  | @move i r p clnt x hi hm hs _ =>
    have hsum := Demux.sum_set (b := { r with phase := p }) hi fun r => r.phase.work
    have hlt := hm.work_lt
    rw [hs]
    simp only [work, setPhase] at hsum ⊢
    omega
  | @send i c r d d' hi hp hd hcall hs =>
    have hsum := Demux.sum_set (b := { r with phase := .sent c d.calls.length }) hi
      fun r => r.phase.work
    have hconn := Demux.sum_set (b := d') hd Demux.work
    have hwork := work_call hcall
    rw [hs]
    simp only [work, setPhase, hp, Phase.work] at hsum ⊢
    omega
  | @conn c x d d' _ hd hconn hs =>
    have hsum := Demux.sum_set (b := d') hd Demux.work
    have hlt := Demux.work_lt hconn hx
    rw [hs]
    simp only [work] at hsum ⊢
    omega
  | close _ => cases hx

/-- **Every call returns**: when no more calls are made, the two sides can take only so many steps,
over all connections, and where they can take no more, every call of `RPC` has returned. -/
theorem rpcs_return {xs : List (Action B)} (hs : (machine marshall init).Reach Counts s)
    (hrun : (machine marshall init).run (fun s x => x.internal = true ∧ s.Counts x) s xs =
      some s') : xs.length ≤ s.work ∧
        (¬ s'.Can marshall init → ∀ r ∈ s'.calls, r.phase.Done) := by
  induction xs generalizing s with
  | nil =>
    cases hrun
    refine ⟨Nat.zero_le _, fun hcan r hr => ?_⟩
    obtain ⟨i, hi⟩ := List.mem_iff_getElem?.mp hr
    by_contra hdone
    exact hcan (can_of_rpc (placed_of_reach hs) hi hdone)
  | cons x xs ih =>
    simp only [Machine.run] at hrun
    split at hrun
    · rename_i hok
      obtain ⟨s₁, hst, hrun⟩ := Option.bind_eq_some_iff.mp hrun
      obtain ⟨hlen, hdone⟩ := ih (.step hs hok.2 hst) hrun
      refine ⟨?_, hdone⟩
      have hlt := work_lt hst hok.1
      rw [List.length_cons]
      omega
    · cases hrun

/-- The peer does not listen at first, so one call fails; the other one has its answer. -/
theorem rpcs_return_later : ∃ s s' : LazyClient ℕ, 13 ≤ s.work ∧ s'.calls.map Rpc.phase =
    [.done none none false, .done (some (0, 0)) (some 60) true] := by
  obtain ⟨s, hs, hv⟩ := (machine (fun _ args => 100 + args) 9).reach_of_run Counts
    (f := fun s => ((machine (fun _ args => 100 + args) 9).run
      (fun s x => x.internal = true ∧ s.Counts x) s
      [.take 0 false, .take 1 true, .send 1, .conn 0 (.tag 0), .conn 0 (.put 0), .conn 0 (.write 0),
        .conn 0 .accept, .conn 0 .readRequest, .conn 0 (.serve 0 60 true), .conn 0 (.answer 0),
        .conn 0 .readReply, .conn 0 .deliver, .receive 1]).map fun s => s.calls.map Rpc.phase)
    (v := some [.done none none false, .done (some (0, 0)) (some 60) true])
    [.rpc "Raft.RequestVote" 5, .rpc "Raft.RequestVote" 6] rfl (by decide +kernel)
  obtain ⟨s', hrun, hcalls⟩ := Option.map_eq_some_iff.mp hv
  exact ⟨s, s', le_trans (by decide) (rpcs_return hs hrun).1, hcalls⟩

end LazyClient

end CollabIde
