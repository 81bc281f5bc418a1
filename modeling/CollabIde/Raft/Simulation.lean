import CollabIde.Raft.Step

/-!
# The cluster refines the replication of one history

`Refined s a`: each peer of `s` is its node of `a`, the messages in flight promise what `a` has
recorded, the elections won are the terms with a leader, and each `voteCount` counts voters
(`Counting`: a vote request is handled once and its reply delivered once, so no voter is counted
twice). Each step of the cluster is matched by steps of the replication (`Refined.step`).
-/

namespace CollabIde

open Replication State

variable {n : ℕ} {C D : Type}

/-- A vote request that is in flight, or whose reply is. -/
structure Ballot (n : ℕ) where
  source : Fin n
  election : ℕ
  target : Fin n
  term : ℤ

def Envelope.ballotOfRpc (q : Envelope n (Rpc C D)) : Option (Ballot n) :=
  match q.body with
  | .vote e args => some ⟨q.source, e, q.target, args.term⟩
  | _ => none

def Envelope.ballotOfAnswer (q : Envelope n (Answer C D)) : Option (Ballot n) :=
  match q.body with
  | .vote e args _ => some ⟨q.source, e, q.target, args.term⟩
  | _ => none

def Cluster.pending (s : Cluster n C D) : List (Ballot n) :=
  s.requests.filterMap Envelope.ballotOfRpc ++ s.replies.filterMap Envelope.ballotOfAnswer

/-- Each `voteCount` is the number of some voters, none of them still pending. -/
structure Counting (s : Cluster n C D) (a : RaftState n C) : Prop where
  nodup : s.pending.Nodup
  old : ∀ b ∈ s.pending, b.election < (s.proc b.source).voteCounts.length
  count : ∀ i e k, (s.proc i).voteCounts[e]? = some k → ∃ (t : ℤ) (S : Finset (Fin n)),
    S.card = k ∧ (∀ v ∈ S, a.voted v t i) ∧
      ∀ b ∈ s.pending, b.source = i → b.election = e → b.term = t ∧ b.target ∉ S

structure Refined (s : Cluster n C D) (a : RaftState n C) : Prop where
  peer : ∀ i, Refines i (s.proc i).raft (a.node i)
  led : LedPos a
  wins : ∀ t, t ∈ s.wins.map Prod.snd ↔ (a.ldr t).isSome = true
  once : (s.wins.map Prod.snd).Nodup
  requests : ∀ q ∈ s.requests, RpcOk a q.source q.body
  replies : ∀ q ∈ s.replies, AnswerOk a q.source q.target q.body
  votes : Counting s a

/-! ## Counting votes -/

namespace Counting

variable {s s' : Cluster n C D} {a a' : RaftState n C}

/-- No new ballots. -/
theorem mono (h : Counting s a) (hg : Grows a a') (hn : s'.pending.Nodup)
    (hsub : ∀ b ∈ s'.pending, b ∈ s.pending)
    (hv : ∀ i, (s'.proc i).voteCounts = (s.proc i).voteCounts) : Counting s' a' where
  nodup := hn
  old b hb := by rw [hv]; exact h.old b (hsub b hb)
  count i e k hk := by
    rw [hv] at hk
    obtain ⟨t, S, h1, h2, h3⟩ := h.count i e k hk
    exact ⟨t, S, h1, fun v hv => hg.voted (h2 v hv), fun b hb => h3 b (hsub b hb)⟩

/-- The same ballots, or some of them. -/
theorem sublist (h : Counting s a) (hg : Grows a a') (hsub : s'.pending.Sublist s.pending)
    (hv : ∀ i, (s'.proc i).voteCounts = (s.proc i).voteCounts) : Counting s' a' :=
  h.mono hg (h.nodup.sublist hsub) (fun _ hb => hsub.subset hb) hv

/-- A new election, with one ballot for each other peer. -/
theorem elect (h : Counting s a) (hg : Grows a a') {i : Fin n} {t : ℤ} {bs : List (Ballot n)}
    (hp : s'.pending.Perm (bs ++ s.pending))
    (hbs : bs = (Cluster.others i).map fun j => ⟨i, (s.proc i).voteCounts.length, j, t⟩)
    (hi : (s'.proc i).voteCounts = (s.proc i).voteCounts ++ [1])
    (ho : ∀ j, j ≠ i → (s'.proc j).voteCounts = (s.proc j).voteCounts)
    (hvote : a'.voted i t i) : Counting s' a' := by
  have hnew : ∀ b ∈ bs, b.source = i ∧ b.election = (s.proc i).voteCounts.length ∧
      b.term = t ∧ b.target ≠ i := by
    intro b hb
    rw [hbs] at hb
    obtain ⟨j, hj, rfl⟩ := List.mem_map.mp hb
    exact ⟨rfl, rfl, rfl, by simpa [Cluster.others] using hj⟩
  have hlen : ∀ j, (s.proc j).voteCounts.length ≤ (s'.proc j).voteCounts.length := by
    intro j
    by_cases hj : j = i
    · subst hj; rw [hi]; simp
    · rw [ho j hj]
  refine ⟨?_, fun b hb => ?_, fun j e k hk => ?_⟩
  · rw [hp.nodup_iff, List.nodup_append]
    refine ⟨?_, h.nodup, fun b hb b' hb' hbb => ?_⟩
    · rw [hbs]
      exact ((List.nodup_finRange n).filter _).map fun x y hxy => by simpa using hxy
    · subst hbb
      have h1 := h.old b hb'
      rw [(hnew b hb).1, (hnew b hb).2.1] at h1
      exact absurd h1 (lt_irrefl _)
  · rcases List.mem_append.mp (hp.subset hb) with hb | hb
    · rw [(hnew b hb).1, (hnew b hb).2.1, hi]; simp
    · exact (h.old b hb).trans_le (hlen _)
  · by_cases hje : j = i ∧ e = (s.proc i).voteCounts.length
    · obtain ⟨rfl, rfl⟩ := hje
      rw [hi] at hk
      refine ⟨t, {j}, by simpa using hk, fun v hv => ?_, fun b hb hbi hbe => ?_⟩
      · rw [Finset.mem_singleton.mp hv]; exact hvote
      · rcases List.mem_append.mp (hp.subset hb) with hb | hb
        · exact ⟨(hnew b hb).2.2.1, by simpa using (hnew b hb).2.2.2⟩
        · have h1 := h.old b hb
          rw [hbi, hbe] at h1
          exact absurd h1 (lt_irrefl _)
    · have hk' : (s.proc j).voteCounts[e]? = some k := by
        by_cases hj : j = i
        · subst hj
          have he : e ≠ (s.proc j).voteCounts.length := fun he => hje ⟨rfl, he⟩
          rw [hi, List.getElem?_append] at hk
          split at hk
          · exact hk
          · rw [List.getElem?_singleton, if_neg (by omega)] at hk
            cases hk
        · rw [← ho j hj]; exact hk
      obtain ⟨t', S, h1, h2, h3⟩ := h.count j e k hk'
      refine ⟨t', S, h1, fun v hv => hg.voted (h2 v hv), fun b hb hbj hbe => ?_⟩
      rcases List.mem_append.mp (hp.subset hb) with hb | hb
      · exact absurd ⟨hbj.symm.trans (hnew b hb).1, hbe.symm.trans (hnew b hb).2.1⟩ hje
      · exact h3 b hb hbj hbe

/-- A ballot `b` comes back and is counted, if it was granted. -/
theorem receive (h : Counting s a) (hg : Grows a a') {b : Ballot n} {k l : ℕ}
    (hp : s.pending.Perm (b :: s'.pending))
    (hk : (s.proc b.source).voteCounts[b.election]? = some k)
    (hi : (s'.proc b.source).voteCounts = (s.proc b.source).voteCounts.set b.election l)
    (ho : ∀ j, j ≠ b.source → (s'.proc j).voteCounts = (s.proc j).voteCounts)
    (hl : l = k ∨ l = k + 1 ∧ a.voted b.target b.term b.source) : Counting s' a' := by
  have hn : (b :: s'.pending).Nodup := hp.nodup_iff.mp h.nodup
  have hsub : ∀ b' ∈ s'.pending, b' ∈ s.pending := fun b' hb' =>
    hp.symm.subset (List.mem_cons_of_mem _ hb')
  have hlen : ∀ j, (s'.proc j).voteCounts.length = (s.proc j).voteCounts.length := by
    intro j
    by_cases hj : j = b.source
    · subst hj; rw [hi, List.length_set]
    · rw [ho j hj]
  refine ⟨(List.nodup_cons.mp hn).2, fun b' hb' => ?_, fun j e m hm => ?_⟩
  · rw [hlen]; exact h.old b' (hsub b' hb')
  · by_cases hje : j = b.source ∧ e = b.election
    · obtain ⟨rfl, rfl⟩ := hje
      obtain ⟨t, S, h1, h2, h3⟩ := h.count _ _ k hk
      obtain ⟨hbt, hbS⟩ := h3 b (hp.symm.subset (by simp)) rfl rfl
      have hlt := (List.getElem?_eq_some_iff.mp hk).1
      rw [hi, List.getElem?_set_self hlt, Option.some.injEq] at hm
      subst hm
      rcases hl with rfl | ⟨rfl, hv⟩
      · exact ⟨t, S, h1, fun v hv => hg.voted (h2 v hv), fun b' hb' => h3 b' (hsub b' hb')⟩
      · refine ⟨t, insert b.target S, by rw [Finset.card_insert_of_notMem hbS, h1], fun v hv' => ?_,
          fun b' hb' hs he => ?_⟩
        · rcases Finset.mem_insert.mp hv' with rfl | hv'
          · exact hg.voted (hbt ▸ hv)
          · exact hg.voted (h2 v hv')
        · obtain ⟨h4, h5⟩ := h3 b' (hsub b' hb') hs he
          refine ⟨h4, fun hmem => ?_⟩
          rcases Finset.mem_insert.mp hmem with h6 | h6
          · -- the same ballot would be pending twice
            have : b' = b := by
              cases b'; cases b
              simp_all
            exact (List.nodup_cons.mp hn).1 (this ▸ hb')
          · exact h5 h6
    · have hm' : (s.proc j).voteCounts[e]? = some m := by
        by_cases hj : j = b.source
        · subst hj
          have he : b.election ≠ e := fun he => hje ⟨rfl, he.symm⟩
          rwa [hi, List.getElem?_set_ne he] at hm
        · rw [← ho j hj]; exact hm
      obtain ⟨t, S, h1, h2, h3⟩ := h.count j e m hm'
      exact ⟨t, S, h1, fun v hv => hg.voted (h2 v hv), fun b' hb' => h3 b' (hsub b' hb')⟩

/-- The voters behind a `voteCount`, once the ballot `b` is counted. -/
theorem quorum (h : Counting s a) {b : Ballot n} {k k' : ℕ} (hb : b ∈ s.pending)
    (hk : (s.proc b.source).voteCounts[b.election]? = some k)
    (hk' : k' = k ∨ k' = k + 1 ∧ a.voted b.target b.term b.source) :
    ∃ S : Finset (Fin n), S.card = k' ∧ ∀ v ∈ S, a.voted v b.term b.source := by
  obtain ⟨t, S, h1, h2, h3⟩ := h.count _ _ k hk
  obtain ⟨rfl, hbS⟩ := h3 b hb rfl rfl
  rcases hk' with rfl | ⟨rfl, hv⟩
  · exact ⟨S, h1, h2⟩
  · refine ⟨insert b.target S, by rw [Finset.card_insert_of_notMem hbS, h1], fun v hv' => ?_⟩
    rcases Finset.mem_insert.mp hv' with rfl | hv'
    · exact hv
    · exact h2 v hv'

end Counting

/-! ## The ballots of a step -/

section Pending

variable {s : Cluster n C D} {k : ℕ}

theorem filterMap_perm {α β : Type} {f : α → Option β} {l : List α} {x : α} (h : l[k]? = some x) :
    (l.filterMap f).Perm ((f x).toList ++ (l.eraseIdx k).filterMap f) := by
  obtain ⟨hk, rfl⟩ := List.getElem?_eq_some_iff.mp h
  have := (List.getElem_cons_eraseIdx_perm hk).symm.filterMap f
  rw [List.filterMap_cons] at this
  cases hf : f l[k] with
  | none => simpa [hf] using this
  | some y => simpa [hf] using this

theorem pending_handle {q : Envelope n (Rpc C D)} {q' : Envelope n (Answer C D)}
    {p : Fin n → Proc n C D} (hq : s.requests[k]? = some q)
    (hb : q'.ballotOfAnswer = q.ballotOfRpc) :
    Cluster.pending { s with
      proc := p, requests := s.requests.eraseIdx k, replies := s.replies ++ [q'] } |>.Perm
      s.pending := by
  have h1 := filterMap_perm (f := Envelope.ballotOfRpc) hq
  have h2 : [q'].filterMap Envelope.ballotOfAnswer = q.ballotOfRpc.toList := by
    rw [List.filterMap_cons, hb]
    cases q.ballotOfRpc <;> rfl
  simp only [Cluster.pending, List.filterMap_append, h2]
  refine .trans ?_ (h1.append_right _).symm
  rw [← List.append_assoc]
  exact List.perm_append_comm.trans (by rw [List.append_assoc])

theorem pending_deliver {q : Envelope n (Answer C D)} {p : Fin n → Proc n C D}
    {w : List (Fin n × ℤ)} (hq : s.replies[k]? = some q) :
    s.pending.Perm (q.ballotOfAnswer.toList ++
      Cluster.pending { s with proc := p, replies := s.replies.eraseIdx k, wins := w }) := by
  have h1 := filterMap_perm (f := Envelope.ballotOfAnswer) hq
  simp only [Cluster.pending]
  refine (h1.append_left _).trans ?_
  rw [← List.append_assoc, ← List.append_assoc]
  exact List.perm_append_comm.append_right _

theorem pending_send {rs : List (Envelope n (Rpc C D))} {p : Fin n → Proc n C D} :
    Cluster.pending { s with proc := p, requests := s.requests ++ rs } |>.Perm
      (rs.filterMap Envelope.ballotOfRpc ++ s.pending) := by
  simp only [Cluster.pending, List.filterMap_append]
  rw [← List.append_assoc]
  exact List.perm_append_comm.append_right _

theorem pending_lose {p : Fin n → Proc n C D} :
    (Cluster.pending { s with proc := p, requests := s.requests.eraseIdx k }).Sublist s.pending :=
  ((List.eraseIdx_sublist _ _).filterMap _).append_right _

end Pending

/-! ## Handlers of any request, restarts -/

namespace Refines

variable {Δ : Discipline} {a : RaftState n C} {v c : Fin n} {rf rf' : Raft n C D}

theorem serve {r : Rpc C D} {answer : Answer C D} (hr : Refines v rf (a.node v))
    (hR : Replication.Reach Δ 0 a) (hD : Δ.commits → Δ.terms ∧ Δ.acks) (hpos : LedPos a)
    (hok : RpcOk a c r) (hkeep : Δ.acks → ∀ args, r = .append args → rf.KeepsEntries args)
    (hrun : rf.serve r = some (rf', answer)) :
    ∃ a', Local Δ v a a' ∧ Refines v rf' (a'.node v) ∧ AnswerOk a' c v answer ∧
      (Δ.commits → rf.commitIndex ≤ rf'.commitIndex) := by
  cases r with
  | vote e args =>
    obtain ⟨⟨rf₁, reply⟩, h1, h2⟩ := Option.map_eq_some_iff.mp hrun
    cases h2
    obtain ⟨h0, g, hs⟩ := hok
    obtain ⟨a', hl, hr', hv⟩ := hr.requestVote (Δ := Δ) hR hpos h0 hs h1
    exact ⟨a', hl, hr', ⟨h0, hv⟩, fun _ => (Raft.requestVote_commitIndex h1).ge⟩
  | append args =>
    obtain ⟨⟨rf₁, reply⟩, h1, h2⟩ := Option.map_eq_some_iff.mp hrun
    cases h2
    obtain ⟨h0, M, k, p, hs⟩ := hok
    obtain ⟨a', hl, hr', hv, hcom⟩ :=
      hr.appendEntries hR hD h0 hs (fun hA => hkeep hA args rfl) h1
    refine ⟨a', hl, hr', ⟨h0, ⟨M, k, p, hs.mono (hl.grows hR)⟩, fun h => ?_⟩, hcom⟩
    rw [hs.length]
    exact_mod_cast hv h
  | snapshot args =>
    obtain ⟨⟨rf₁, reply⟩, h1, h2⟩ := Option.map_eq_some_iff.mp hrun
    cases h2
    obtain ⟨h0, k, d, L, hs⟩ := hok
    obtain ⟨a', hl, hr', hb⟩ := hr.installSnapshot (Δ := Δ) hR hs h1
    obtain ⟨L', hs'⟩ := hs.mono (hl.grows hR)
    exact ⟨a', hl, hr', ⟨h0, ⟨k, d, L', hs'⟩, hb⟩, fun _ => Raft.installSnapshot_commitIndex h1⟩

theorem restart (hr : Refines v rf (a.node v)) :
    ∃ a', Local Δ v a a' ∧ Refines v (Raft.make rf.me rf.persister) (a'.node v) := by
  refine ⟨a.restart v, .of_set (.restart v), ?_⟩
  rw [State.restart, set_node_self]
  exact hr.make

/-- A crash after the first `persist` of a handler. -/
theorem crash {r : Rpc C D} (hr : Refines v rf (a.node v)) (hok : RpcOk a c r) :
    ∃ a', Local Δ v a a' ∧
      Refines v (Raft.make (rf.serveTerm r).me (rf.serveTerm r).persister) (a'.node v) := by
  cases r with
  | vote e args =>
    simp only [Raft.serveTerm]
    by_cases hle : rf.currentTerm ≤ args.term
    · obtain ⟨a₁, hl₁, hr₁, -⟩ := hr.requestVoteTerm (Δ := Δ) hok.1 hle
      obtain ⟨a₂, hl₂, hr₂⟩ := hr₁.restart (Δ := Δ)
      exact ⟨a₂, hl₁.trans hl₂, hr₂⟩
    · rw [Raft.requestVoteTerm, if_neg (by omega)]
      exact hr.restart
  | append args =>
    simp only [Raft.serveTerm]
    by_cases hle : rf.currentTerm ≤ args.term
    · obtain ⟨a₁, hl₁, hr₁, -⟩ := hr.appendEntriesTerm (Δ := Δ) hok.1 hle
      obtain ⟨a₂, hl₂, hr₂⟩ := hr₁.restart (Δ := Δ)
      exact ⟨a₂, hl₁.trans hl₂, hr₂⟩
    · rw [Raft.appendEntriesTerm, if_neg (by omega)]
      exact hr.restart
  | snapshot args => exact hr.restart

end Refines

/-! ## The steps of the cluster -/

namespace Refined

variable {Δ : Discipline} {s s' : Cluster n C D} {a a' : RaftState n C} {i : Fin n}
  {p : Proc n C D}

theorem initial {a : RaftState n C} (ha : Start 0 a) :
    Refined (Cluster.initial : Cluster n C D) a where
  peer i := by rw [ha.node]; exact .initial i
  led t c L hL := by rw [ha.ldr] at hL; cases hL
  wins t := by rw [ha.ldr]; simp [Cluster.initial]
  once := List.nodup_nil
  requests q hq := by cases hq
  replies q hq := by cases hq
  votes := {
    nodup := List.nodup_nil
    old := fun b hb => by cases hb
    count := fun i e k hk => by simp [Cluster.initial, Proc.initial] at hk }

/-- One peer changes; no election is won. -/
theorem update (h : Refined s a) (hR : Replication.Reach Δ 0 a) (hl : Local Δ i a a')
    (hp : s'.proc = Function.update s.proc i p) (hr : Refines i p.raft (a'.node i))
    (hw : s'.wins = s.wins) (hreq : ∀ q ∈ s'.requests, q ∈ s.requests ∨ RpcOk a' q.source q.body)
    (hrep : ∀ q ∈ s'.replies, q ∈ s.replies ∨ AnswerOk a' q.source q.target q.body)
    (hv : Counting s' a') : Refined s' a' where
  peer j := by
    rw [hp]
    by_cases hj : j = i
    · subst hj; rw [Function.update_self]; exact hr
    · rw [Function.update_of_ne hj, hl.others j hj]; exact h.peer j
  led := h.led.of_led hl.led
  wins t := by rw [hw, hl.led]; exact h.wins t
  once := by rw [hw]; exact h.once
  requests q hq := (hreq q hq).elim (fun h1 => (h.requests q h1).mono (hl.grows hR)) id
  replies q hq := (hrep q hq).elim (fun h1 => (h.replies q h1).mono (hl.grows hR)) id
  votes := hv

/-- One peer changes, and nothing else. -/
theorem setProc (h : Refined s a) (hR : Replication.Reach Δ 0 a) (hl : Local Δ i a a')
    (hr : Refines i p.raft (a'.node i)) (hv : p.voteCounts = (s.proc i).voteCounts) :
    Refined (s.setProc i p) a' :=
  h.update hR hl rfl hr rfl (fun _ hq => .inl hq) (fun _ hq => .inl hq)
    (h.votes.sublist (hl.grows hR) (.refl _) fun j => by
      by_cases hj : j = i
      · subst hj; simp [Cluster.setProc, hv]
      · simp [Cluster.setProc, hj])

theorem timeout (h : Refined s a) (hR : Replication.Reach Δ 0 a)
    (hs : s.timeout i = some s') :
    ∃ a', Relation.ReflTransGen (Step Δ) a a' ∧ Refined s' a' := by
  obtain ⟨⟨rf, args⟩, hrun, hs⟩ := Option.bind_eq_some_iff.mp hs
  rw [Option.some.injEq] at hs
  subst hs
  obtain ⟨a', hl, hr, h0, hst, hv⟩ := (h.peer i).startElection (Δ := Δ) hrun
  refine ⟨a', hl.steps, h.update hR hl rfl hr rfl (fun q hq => ?_) (fun q hq => .inl hq)
    (h.votes.elect (hl.grows hR) pending_send ?_ ?_ (fun j hj => ?_) hv)⟩
  · rcases List.mem_append.mp hq with hq | hq
    · exact .inl hq
    · obtain ⟨j, -, rfl⟩ := List.mem_map.mp hq
      exact .inr ⟨h0, _, hst⟩
  · rw [List.filterMap_map]
    exact List.filterMap_eq_map' (f := fun j => (⟨i, _, j, args.term⟩ : Ballot n)) ▸ rfl
  · simp [Cluster.setProc]
  · simp [Cluster.setProc, hj]

theorem heartbeat (h : Refined s a) (hR : Replication.Reach Δ 0 a)
    (hs : s.heartbeat i = some s') :
    ∃ a', Relation.ReflTransGen (Step Δ) a a' ∧ Refined s' a' := by
  obtain ⟨ms, hrun, hs⟩ := Option.bind_eq_some_iff.mp hs
  rw [Option.some.injEq] at hs
  subst hs
  obtain ⟨hl, hms⟩ := (h.peer i).heartbeat (Δ := Δ) (.reach hR) hrun
  set new := ms.map fun m => (⟨i, m.1, (s.proc i).epoch, m.2.rpc⟩ : Envelope n (Rpc C D)) with hnew
  have hnone : new.filterMap Envelope.ballotOfRpc = [] := by
    rw [hnew, List.filterMap_map, List.filterMap_eq_nil_iff]
    rintro ⟨j, m⟩ -
    cases m <;> rfl
  have hpend : Cluster.pending { s with requests := s.requests ++ new } = s.pending := by
    simp only [Cluster.pending, List.filterMap_append, hnone, List.append_nil]
  refine ⟨_, hl.steps, h.update hR hl (Function.update_eq_self i s.proc).symm (h.peer i) rfl
    (fun q hq => ?_) (fun q hq => .inl hq)
    (h.votes.sublist (hl.grows hR) (hpend ▸ .refl _) fun _ => rfl)⟩
  rcases List.mem_append.mp hq with hq | hq
  · exact .inl hq
  · obtain ⟨m, hm, rfl⟩ := List.mem_map.mp hq
    exact .inr (hms m hm)

theorem handle {k : ℕ} (h : Refined s a) (hR : Replication.Reach Δ 0 a)
    (hD : Δ.commits → Δ.terms ∧ Δ.acks) (hA : Δ.acks → s.KeepsEntries (.handle k))
    (hs : s.handle k = some s') :
    ∃ a', Relation.ReflTransGen (Step Δ) a a' ∧ Refined s' a' := by
  obtain ⟨q, hq, hs⟩ := Option.bind_eq_some_iff.mp hs
  obtain ⟨⟨rf, answer⟩, hrun, hs⟩ := Option.bind_eq_some_iff.mp hs
  rw [Option.some.injEq] at hs
  subst hs
  obtain ⟨a', hl, hr, hans, -⟩ := (h.peer q.target).serve hR hD h.led
    (h.requests q (List.mem_of_getElem? hq))
    (fun hA' args hb => hA hA' k rfl q hq args (by rw [hb]; rfl)) hrun
  have hb : Envelope.ballotOfAnswer ⟨q.source, q.target, q.epoch, answer⟩ = q.ballotOfRpc := by
    obtain ⟨i, j, e, r⟩ := q
    cases r <;> obtain ⟨_, -, h2⟩ := Option.map_eq_some_iff.mp hrun <;> cases h2 <;> rfl
  have hperm := pending_handle (s := s) (p := Function.update s.proc q.target
    { s.proc q.target with raft := rf }) hq hb
  refine ⟨a', hl.steps, h.update hR hl rfl hr rfl
    (fun q' hq' => .inl (List.mem_of_mem_eraseIdx hq')) (fun q' hq' => ?_)
    (h.votes.mono (hl.grows hR) (hperm.nodup_iff.mpr h.votes.nodup) (fun b hb => hperm.subset hb)
      fun j => ?_)⟩
  · rcases List.mem_append.mp hq' with hq' | hq'
    · exact .inl hq'
    · rw [List.mem_singleton.mp hq']
      exact .inr hans
  · by_cases hj : j = q.target
    · subst hj; simp [Cluster.setRaft, Cluster.setProc]
    · simp [Cluster.setRaft, Cluster.setProc, hj]

theorem crashIn {k : ℕ} (h : Refined s a) (hR : Replication.Reach Δ 0 a)
    (hs : s.crashIn k = some s') :
    ∃ a', Relation.ReflTransGen (Step Δ) a a' ∧ Refined s' a' := by
  obtain ⟨q, hq, hs⟩ := Option.bind_eq_some_iff.mp hs
  rw [Option.some.injEq] at hs
  subst hs
  obtain ⟨a', hl, hr⟩ := (h.peer q.target).crash (Δ := Δ)
    (h.requests q (List.mem_of_getElem? hq))
  refine ⟨a', hl.steps, h.update hR hl rfl hr rfl
    (fun q' hq' => .inl (List.mem_of_mem_eraseIdx hq')) (fun q' hq' => .inl hq')
    (h.votes.sublist (hl.grows hR) pending_lose fun j => ?_)⟩
  by_cases hj : j = q.target
  · subst hj; simp [Cluster.setProc, Proc.restart]
  · simp [Cluster.setProc, hj]

/-- A peer wins an election. -/
theorem win {b : Ballot n} {w : ℕ} (h : Refined s a) (hR : Replication.Reach Δ 0 a)
    (hp : s'.proc = Function.update s.proc b.source p)
    (hrf : p.raft = (s.proc b.source).raft.becomeLeader)
    (hw : s'.wins = s.wins ++ [(b.source, b.term)]) (hreq : s'.requests = s.requests)
    (hrep : ∀ q ∈ s'.replies, q ∈ s.replies) (hv : ∀ a', Grows a a' → Counting s' a')
    (hcand : (s.proc b.source).raft.currentRole = .candidate)
    (hterm : (s.proc b.source).raft.currentTerm = b.term)
    (hQ : ∃ S : Finset (Fin n), S.card = w ∧ ∀ v ∈ S, a.voted v b.term b.source)
    (hmaj : n / 2 + 1 ≤ w) (hwin : Δ.terms ∨ (s'.wins.map Prod.snd).Nodup) :
    ∃ a', Relation.ReflTransGen (Step Δ) a a' ∧ Refined s' a' := by
  obtain ⟨Q, hcard, hvote⟩ := hQ
  have hr := h.peer b.source
  have hnode : (a.node b.source).term = b.term := hr.term.trans hterm
  have hrole : (a.node b.source).role = .candidate := hr.role.trans hcand
  have hmajQ : IsMajority Q := by
    unfold IsMajority
    rw [Fintype.card_fin]
    omega
  have hvote' : ∀ v ∈ Q, a.voted v (a.node b.source).term b.source := by rwa [hnode]
  have hnone : a.ldr (a.node b.source).term = none := by
    rcases hwin with hT | hnd
    · exact (Elections.reach hT hR).ldr_none hrole hmajQ hvote'
    · rw [hw, List.map_append, List.nodup_append] at hnd
      have hnot : b.term ∉ s.wins.map Prod.snd := fun hmem =>
        hnd.2.2 b.term hmem b.term (by simp) rfl
      rw [h.wins, ← hnode] at hnot
      simpa using hnot
  have hnot : b.term ∉ s.wins.map Prod.snd := by
    rw [h.wins, ← hnode, hnone]; simp
  have hstep : Step Δ a (a.win b.source) := .win b.source Q hrole hmajQ hvote' hnone
  have hg : Grows a (a.win b.source) := hstep.grows (.reach hR)
  have hpos : 0 < b.term := by
    rw [← hnode]
    exact hr.busy (by rw [hrole]; exact Role.noConfusion)
  refine ⟨_, .single hstep, ⟨fun j => ?_, fun t c L hL => ?_, fun t => ?_, ?_, fun q hq => ?_,
    fun q hq => (h.replies q (hrep q hq)).mono hg, hv _ hg⟩⟩
  · rw [hp]
    by_cases hj : j = b.source
    · subst hj
      rw [Function.update_self, hrf]
      exact hr.becomeLeader (by rw [hterm]; exact hpos)
    · rw [Function.update_of_ne hj]
      simpa [State.win, hj] using h.peer j
  · simp only [State.win, setAck_ldr, setLdr_ldr, set_ldr, hnode] at hL
    split at hL
    · subst_vars; exact hpos
    · exact h.led t c L hL
  · simp only [State.win, setAck_ldr, setLdr_ldr, set_ldr, hnode, hw, List.map_append,
      List.mem_append, List.map_cons, List.map_nil, List.mem_singleton, h.wins]
    split <;> simp_all
  · rw [hw, List.map_append]
    exact h.once.append (List.nodup_singleton _) (by simpa using hnot)
  · exact (h.requests q (hreq ▸ hq)).mono hg

theorem deliver_vote {k e : ℕ} {args : RequestVoteArgs} {reply : RequestVoteReply}
    {q : Envelope n (Answer C D)} (h : Refined s a) (hR : Replication.Reach Δ 0 a)
    (hq : s.replies[k]? = some q) (hb : q.body = .vote e args reply)
    (hfresh : Δ.terms → args.term < reply.term → (s.proc q.source).raft.Fresh reply.term)
    {r : Raft n C D × ℕ × Bool}
    (hr : (s.proc q.source).raft.voteReply ((s.proc q.source).voteCounts.getD e 0) args reply = r)
    (hs : s' = { s with
      proc := Function.update s.proc q.source { s.proc q.source with
        raft := r.1, voteCounts := (s.proc q.source).voteCounts.set e r.2.1 }
      replies := s.replies.eraseIdx k
      wins := if r.2.2 then s.wins ++ [(q.source, r.1.currentTerm)] else s.wins })
    (hwin : Δ.terms ∨ (s'.wins.map Prod.snd).Nodup) :
    ∃ a', Relation.ReflTransGen (Step Δ) a a' ∧ Refined s' a' := by
  set b : Ballot n := ⟨q.source, e, q.target, args.term⟩ with hbdef
  have hqb : q.ballotOfAnswer = some b := by rw [Envelope.ballotOfAnswer, hb]
  have hbp : b ∈ s.pending := by
    refine List.mem_append_right _ (List.mem_filterMap.mpr ⟨q, List.mem_of_getElem? hq, hqb⟩)
  have hlt : e < (s.proc q.source).voteCounts.length := h.votes.old b hbp
  obtain ⟨w, hw⟩ : ∃ w, (s.proc q.source).voteCounts[e]? = some w :=
    ⟨_, List.getElem?_eq_getElem hlt⟩
  rw [List.getD_eq_getElem?_getD, hw, Option.getD_some] at hr
  have hans := h.replies q (List.mem_of_getElem? hq)
  rw [hb] at hans
  obtain ⟨h0, hvoted⟩ := hans
  have hperm : s.pending.Perm (b :: s'.pending) := by
    have := pending_deliver (s := s) (p := s'.proc) (w := s'.wins) hq
    rw [hqb] at this
    subst hs
    exact this
  -- the ballot is counted, or the count stays
  have hcount : ∀ a', Grows a a' → (r.2.1 = w ∨ r.2.1 = w + 1 ∧ a.voted b.target b.term b.source) →
      Counting s' a' := fun a' hg hk => by
    subst hs
    refine h.votes.receive hg hperm hw (l := r.2.1) (by simp [b]) (fun j hj => ?_) hk
    simp [b] at hj
    simp [hj]
  have hrep : ∀ q' ∈ s'.replies, q' ∈ s.replies := by
    subst hs; exact fun q' hq' => List.mem_of_mem_eraseIdx hq'
  -- the peer does not win
  have hlose : ∀ a', r.2.2 = false → r.2.1 = w ∨ r.2.1 = w + 1 ∧ a.voted b.target b.term b.source →
      Local Δ q.source a a' → Refines q.source r.1 (a'.node q.source) →
      ∃ a', Relation.ReflTransGen (Step Δ) a a' ∧ Refined s' a' := fun a' hwon hk hl href =>
    ⟨a', hl.steps, h.update hR hl (by rw [hs]) href (by rw [hs]; simp [hwon])
      (fun q' hq' => .inl (by rw [hs] at hq'; exact hq')) (fun q' hq' => .inl (hrep q' hq'))
      (hcount a' (hl.grows hR) hk)⟩
  unfold Raft.voteReply at hr
  split at hr
  · rename_i hlt'
    obtain ⟨hl, href⟩ := (h.peer q.source).stepDown_local (Δ := Δ) (h0.trans hlt'.le)
      fun hT => hfresh hT hlt'
    subst hr
    exact hlose _ rfl (.inl rfl) hl href
  split at hr
  · subst hr
    exact hlose a rfl (.inl rfl) (.refl a) (h.peer q.source)
  rename_i hcand
  rw [not_or, not_not, ne_eq, not_not] at hcand
  obtain ⟨w', hw'⟩ : ∃ w', w' = if reply.voteGranted then w + 1 else w := ⟨_, rfl⟩
  have hk : w' = w ∨ w' = w + 1 ∧ a.voted b.target b.term b.source := by
    split at hw'
    · exact .inr ⟨hw', hvoted ‹_›⟩
    · exact .inl hw'
  simp only [← hw'] at hr
  split at hr
  · rename_i hmaj
    subst hr
    exact h.win (p := s'.proc q.source) hR (b := b) (w := w') (by subst hs; simp [b])
      (by subst hs; simp [b]) (by subst hs; simp [b, Raft.becomeLeader, hcand.1])
      (by subst hs; rfl) hrep (fun a' hg => hcount a' hg hk) hcand.2 hcand.1
      (h.votes.quorum hbp hw hk) hmaj.1 hwin
  · subst hr
    exact hlose a rfl hk (.refl a) (h.peer q.source)

/-- A reply of an append or a snapshot request. -/
theorem deliver_other {k : ℕ} {rf : Raft n C D} {q : Envelope n (Answer C D)} (h : Refined s a)
    (hR : Replication.Reach Δ 0 a)
    (hl : ∃ a', Local Δ q.source a a' ∧ Refines q.source rf (a'.node q.source)) :
    ∃ a', Relation.ReflTransGen (Step Δ) a a' ∧ Refined { s with
      proc := Function.update s.proc q.source { s.proc q.source with raft := rf }
      replies := s.replies.eraseIdx k } a' := by
  obtain ⟨a', hl, hr⟩ := hl
  refine ⟨a', hl.steps, h.update hR hl rfl hr rfl (fun q' hq' => .inl hq')
    (fun q' hq' => .inl (List.mem_of_mem_eraseIdx hq'))
    (h.votes.sublist (hl.grows hR) ?_ fun j => ?_)⟩
  · exact ((List.eraseIdx_sublist _ _).filterMap _).append_left _
  · by_cases hj : j = q.source
    · subst hj; simp
    · simp [hj]

theorem deliver {k : ℕ} (h : Refined s a) (hR : Replication.Reach Δ 0 a)
    (hD : Δ.commits → Δ.terms ∧ Δ.acks) (hT : Δ.terms → s.FreshTerm (.deliver k))
    (hcount : Δ.commits → ∀ i, (s.proc i).raft.currentRole = .leader →
      Refines.Counted a i (s.proc i).raft)
    (hwin : Δ.terms ∨ (s'.wins.map Prod.snd).Nodup) (hs : s.deliver k = some s') :
    ∃ a', Relation.ReflTransGen (Step Δ) a a' ∧ Refined s' a' := by
  obtain ⟨q, hq, hs⟩ := Option.bind_eq_some_iff.mp hs
  split at hs
  swap
  · cases hs
  rename_i hepoch
  obtain ⟨⟨p, won⟩, hrec, hs⟩ := Option.bind_eq_some_iff.mp hs
  rw [Option.some.injEq] at hs
  have hans := h.replies q (List.mem_of_getElem? hq)
  have hfresh : Δ.terms → q.body.argsTerm < q.body.replyTerm →
      (s.proc q.source).raft.Fresh q.body.replyTerm := fun hT' => hT hT' k rfl q hq hepoch
  cases hb : q.body with
  | vote e args reply =>
    rw [hb] at hrec hfresh
    simp only [Proc.receive, Option.some.injEq, Prod.mk.injEq] at hrec
    refine h.deliver_vote hR hq hb hfresh rfl ?_ hwin
    rw [← hs, ← hrec.1, ← hrec.2]
    rfl
  | append args reply =>
    rw [hb] at hrec hfresh hans
    obtain ⟨rf, hrf, h2⟩ := Option.map_eq_some_iff.mp hrec
    simp only [Prod.mk.injEq] at h2
    obtain ⟨rfl, rfl⟩ := h2
    obtain ⟨h0, -, hack⟩ := hans
    subst hs
    refine h.deliver_other hR ((h.peer q.source).appendReply hR hD h0 hfresh
      (fun hC hrole ht hsucc j hj => ?_) hrf)
    by_cases hjt : j = q.target
    · subst hjt
      simp only [Function.update_self, ht]
      exact .inl (hack hsucc)
    · simp only [Function.update_of_ne hjt]
      exact hcount hC q.source hrole j hj
  | snapshot args reply =>
    rw [hb] at hrec hfresh hans
    simp only [Proc.receive, Option.some.injEq, Prod.mk.injEq] at hrec
    obtain ⟨rfl, rfl⟩ := hrec
    subst hs
    exact h.deliver_other hR ((h.peer q.source).snapshotReply hans.1 hfresh)

theorem apply (h : Refined s a) (hR : Replication.Reach Δ 0 a) (hs : s.apply i = some s') :
    Refined s' a := by
  dsimp only [Cluster.apply] at hs
  split at hs
  swap
  · cases hs
  obtain ⟨⟨rf, out⟩, hrun, rfl⟩ := Option.map_eq_some_iff.mp hs
  have hr : Refines i rf (a.node i) := by
    unfold Raft.applier at hrun
    split at hrun
    · simp only [Option.some.injEq, Prod.mk.injEq] at hrun
      exact hrun.1 ▸ (h.peer i).volatile
    split at hrun
    · obtain ⟨es, -, hrun⟩ := Option.bind_eq_some_iff.mp hrun
      simp only [Option.some.injEq, Prod.mk.injEq] at hrun
      exact hrun.1 ▸ (h.peer i).volatile
    · simp only [Option.some.injEq, Prod.mk.injEq] at hrun
      exact hrun.1 ▸ h.peer i
  exact h.setProc hR (.refl a) hr rfl

theorem send (h : Refined s a) (hR : Replication.Reach Δ 0 a) (hs : s.send i = some s') :
    Refined s' a := by
  dsimp only [Cluster.send] at hs
  split at hs
  · cases hs
  · rename_i m rest _
    rw [Option.some.injEq] at hs
    subst hs
    have h1 := h.setProc (p := { s.proc i with applying := rest }) hR (.refl a) (h.peer i) rfl
    exact ⟨h1.peer, h1.led, h1.wins, h1.once, h1.requests, h1.replies,
      h1.votes.sublist (.refl a) (.refl _) fun _ => rfl⟩

/-- **A step of the cluster** is matched by steps of the replication: under the discipline of
terms, acks or commits it needs the corresponding condition on the step. -/
theorem step {x : Action n C D} (h : Refined s a) (hR : Replication.Reach Δ 0 a)
    (hD : Δ.commits → Δ.terms ∧ Δ.acks) (hT : Δ.terms → s.FreshTerm x)
    (hA : Δ.acks → s.KeepsEntries x)
    (hS : Δ.commits → ∀ c ∈ x.snapshotted, c.2 ≤ (s.proc c.1).raft.commitIndex)
    (hcount : Δ.commits → ∀ i, (s.proc i).raft.currentRole = .leader →
      Refines.Counted a i (s.proc i).raft)
    (hwin : Δ.terms ∨ (s'.wins.map Prod.snd).Nodup) (hs : s.step x = some s') :
    ∃ a', Relation.ReflTransGen (Step Δ) a a' ∧ Refined s' a' := by
  cases x with
  | timeout i => exact h.timeout hR hs
  | heartbeat i => exact h.heartbeat hR hs
  | start i command =>
    simp only [Cluster.step, Option.some.injEq] at hs
    subst hs
    obtain ⟨a', hl, hr⟩ := (h.peer i).start (Δ := Δ) (.reach hR) command
    exact ⟨a', hl.steps, h.setProc hR hl hr rfl⟩
  | snapshot i index data =>
    obtain ⟨rf, hrun, rfl⟩ := Option.map_eq_some_iff.mp hs
    obtain ⟨a', hl, hr⟩ := (h.peer i).doSnapshot (Δ := Δ) (fun hC => hS hC (i, index) rfl) hrun
    exact ⟨a', hl.steps, h.setProc hR hl hr rfl⟩
  | handle k => exact h.handle hR hD hA hs
  | deliver k => exact h.deliver hR hD hT hcount hwin hs
  | loseRequest k =>
    simp only [Cluster.step, Option.some.injEq] at hs
    subst hs
    exact ⟨a, .refl, h.peer, h.led, h.wins, h.once,
      fun q hq => h.requests q (List.mem_of_mem_eraseIdx hq), h.replies,
      h.votes.sublist (.refl a) (((List.eraseIdx_sublist _ _).filterMap _).append_right _)
        fun _ => rfl⟩
  | loseReply k =>
    simp only [Cluster.step, Option.some.injEq] at hs
    subst hs
    exact ⟨a, .refl, h.peer, h.led, h.wins, h.once, h.requests,
      fun q hq => h.replies q (List.mem_of_mem_eraseIdx hq),
      h.votes.sublist (.refl a) (((List.eraseIdx_sublist _ _).filterMap _).append_left _)
        fun _ => rfl⟩
  | apply i => exact ⟨a, .refl, h.apply hR hs⟩
  | send i => exact ⟨a, .refl, h.send hR hs⟩
  | restart i =>
    simp only [Cluster.step, Option.some.injEq] at hs
    subst hs
    obtain ⟨a', hl, hr⟩ := (h.peer i).restart (Δ := Δ)
    exact ⟨a', hl.steps, h.setProc hR hl hr rfl⟩
  | crashIn k => exact h.crashIn hR hs

end Refined

/-! ## Runs -/

/-- A replication in which nothing has happened. -/
def blankState (n : ℕ) (C : Type) : RaftState n C where
  node _ := ⟨0, 0, none, .follower, [], 0, 0⟩
  stood _ _ _ := False
  voted _ _ _ := False
  ldr _ := none
  sent _ _ _ := False
  snap _ _ := False
  ack _ _ := 0

theorem blankState_start : Start 0 (blankState n C) :=
  ⟨fun _ => rfl, fun _ _ _ h => h, fun _ _ _ h => h, fun _ => rfl, fun _ _ _ h => h,
    fun _ _ h => h, fun _ _ => rfl⟩

/-- **Runs refine the replication**: under no discipline, if no term is won twice, or under the
discipline of terms, if each step has a fresh term; and under that of acks as well, if each step
keeps the leader's entries. -/
theorem refined_of_reach {Δ : Discipline} (hC : ¬ Δ.commits)
    {ok : Cluster n C D → Action n C D → Prop}
    (hT : Δ.terms → ∀ s x, ok s x → s.FreshTerm x)
    (hA : Δ.acks → ∀ s x, ok s x → s.KeepsEntries x) {s : Cluster n C D}
    (hs : (Cluster.machine n C D).Reach ok s)
    (hwin : Δ.terms ∨ (s.wins.map Prod.snd).Nodup) :
    ∃ a, Replication.Reach Δ 0 a ∧ Refined s a := by
  induction hs with
  | init hi =>
    cases hi
    exact ⟨_, .start blankState_start, .initial blankState_start⟩
  | @step s s' x _ hok hst ih =>
    obtain ⟨a, hR, h⟩ := ih (hwin.imp_right fun hn =>
      hn.sublist ((Cluster.stepped hst).wins.sublist.map _))
    obtain ⟨a', hsteps, h'⟩ := h.step hR (fun h => absurd h hC) (fun h => hT h s x hok)
      (fun h => hA h s x hok) (fun h => absurd h hC) (fun h => absurd h hC) hwin hst
    exact ⟨a', hR.steps hsteps, h'⟩

end CollabIde
