import Mathlib.Algebra.BigOperators.Group.List.Basic
import Mathlib.Algebra.Ring.Nat
import CollabIde.Net.Calls

/-!
# No call is left waiting

A call that waits at its reply channel has its request on the way to the server, a goroutine there,
its reply on the way back, or a connection that has broken off (`Located`). Each step of the client
or the server lowers `Demux.work`, so a run of such steps ends, and where it cannot go on every
call has returned (`calls_return`): neither a reply in another order nor the end of the connection
leaves a caller or the reader waiting for the other.
-/

namespace CollabIde.Demux

variable {B : Type}

/-- `SendReceive` has returned. -/
def CallPhase.Done : CallPhase B → Prop
  | .returned _ | .refused => True
  | _ => False

/-- A step of the client or the server: not a new call, nor the end of the connection. -/
def Action.internal : Action B → Bool
  | .call _ | .cut .. | .close => false
  | _ => true

section Invariant

variable (s : Demux B)

/-- Where the request of a waiting call is. -/
def Somewhere (t : UInt32) : Prop :=
  s.broken = true ∨ t ∈ s.inbound.map Msg.tag ∨ (∃ j ∈ s.jobs, j.tag = t ∧ j.written = false) ∨
    t ∈ s.replies.map Msg.tag

structure Located : Prop where
  mapped : s.Mapped
  located : ∀ (k : ℕ) (c : Call B), s.calls[k]? = some c → c.phase = .waiting →
    (c.tag, k) ∈ s.callMap → s.Somewhere c.tag
  ended : s.srv ≠ .accepting → s.srv ≠ .reading → s.broken = true

end Invariant

variable {s s' : Demux B} {x : Action B}

theorem step_broken (h : s.step x = some s') (hb : s.broken = true) : s'.broken = true := by
  cases stepped h with
  | readReply _ _ => exact (reply_wires (s := { s with replies := _ }) _ _ _).2.2.2.2.2.trans hb
  | failNext _ => exact (reply_wires (s := s) _ _ _).2.2.2.2.2.trans hb
  | cut => rfl
  | _ => exact hb

theorem step_ended (h : s.step x = some s')
    (hended : s.srv ≠ .accepting → s.srv ≠ .reading → s.broken = true) (h₁ : s'.srv ≠ .accepting)
    (h₂ : s'.srv ≠ .reading) : s'.broken = true := by
  cases stepped h with
  | accept _ _ => exact absurd rfl h₂
  | die hb _ _ => exact hb
  | endServer hb _ _ => exact hb
  | readReply _ _ =>
    obtain ⟨-, -, -, hsrv, -, hb⟩ := reply_wires (s := { s with replies := _ }) _ _ _
    rw [hsrv] at h₁ h₂
    exact hb.trans (hended h₁ h₂)
  | failNext _ =>
    obtain ⟨-, -, -, hsrv, -, hb⟩ := reply_wires (s := s) _ _ _
    rw [hsrv] at h₁ h₂
    exact hb.trans (hended h₁ h₂)
  | cut => rfl
  | _ => exact hended h₁ h₂

/-- A call that waits has waited, or its request has just been written. -/
theorem waiting_of_step (h : s.step x = some s') {k : ℕ} {c : Call B}
    (hk : s'.calls[k]? = some c) (hp : c.phase = .waiting) : s.calls[k]? = some c ∨
      ∃ req, x = .write k ∧ s.calls[k]? = some ⟨req, c.tag, .enqueued⟩ := by
  have hset {k₀ : ℕ} {c₀ c' : Call B} (hk₀ : s.calls[k₀]? = some c₀)
      (hk : (s.calls.set k₀ c')[k]? = some c) (hp' : c'.phase ≠ .waiting) :
      s.calls[k]? = some c := by
    rw [getElem?_set_of hk₀] at hk
    split at hk
    · cases hk
      exact absurd hp hp'
    · exact hk
  cases stepped h with
  | call =>
    rw [List.getElem?_append] at hk
    split at hk
    · exact .inl hk
    · rw [List.mem_singleton.mp (List.mem_of_getElem? hk)] at hp
      cases hp
  | tag hk₀ => exact .inl (hset hk₀ hk (by rintro ⟨⟩))
  | refuse hk₀ _ => exact .inl (hset hk₀ hk (by rintro ⟨⟩))
  | put hk₀ _ => exact .inl (hset hk₀ hk (by rintro ⟨⟩))
  | @write k₀ req t hk₀ =>
    simp only [setCall] at hk
    rw [getElem?_set_of hk₀] at hk
    split at hk
    · rename_i hkk
      subst hkk
      cases hk
      exact .inr ⟨req, rfl, hk₀⟩
    · exact .inl hk
  | deliver _ hk₀ => exact .inl (hset hk₀ hk (by rintro ⟨⟩))
  | readReply _ _ =>
    rw [(reply_calls (s := { s with replies := _ }) _ _ _).1] at hk
    exact .inl hk
  | failNext _ =>
    rw [(reply_calls (s := s) _ _ _).1] at hk
    exact .inl hk
  | _ => exact .inl hk

/-- A request that has just been written is on its way. -/
theorem somewhere_of_write (h : s.Matched) {k : ℕ} (hst : s.step (.write k) = some s') {req : B}
    {t : UInt32} (hk : s.calls[k]? = some ⟨req, t, .enqueued⟩) : s'.Somewhere t := by
  by_cases hb : s.broken = true
  · exact .inl (step_broken hst hb)
  · right
    left
    cases stepped hst with
    | @write _ req' t' hk' =>
      rw [hk, Option.some.injEq, Call.mk.injEq] at hk'
      obtain ⟨rfl, rfl, -⟩ := hk'
      simp only [inbound, setCall, write, if_neg hb]
      split
      · rename_i hsrv
        rw [List.tail_append_of_ne_nil fun hnil => hb (h.first hsrv hnil), List.map_append]
        exact List.mem_append_right _ (List.mem_singleton_self _)
      · rw [List.map_append]
        exact List.mem_append_right _ (List.mem_singleton_self _)

/-- An entry of the map has been there, or its call has just been put there. -/
theorem callMap_of_step (h : s.step x = some s') {e : UInt32 × ℕ} (he : e ∈ s'.callMap) :
    e ∈ s.callMap ∨ ∃ req t, s'.calls[e.2]? = some ⟨req, t, .enqueued⟩ := by
  cases stepped h with
  | @put k req t hk _ =>
    obtain rfl | he := List.mem_cons.mp he
    · exact .inr ⟨req, t, (getElem?_set_of hk).trans (if_pos rfl)⟩
    · exact .inl (List.mem_filter.mp he).1
  | readReply _ _ =>
    rw [reply_callMap] at he
    exact .inl (List.mem_filter.mp he).1
  | failNext _ =>
    rw [reply_callMap] at he
    exact .inl (List.mem_filter.mp he).1
  | _ => exact .inl he

/-- A request that is somewhere stays so, until its reply is read. -/
theorem Somewhere.step {t : UInt32} (hl : s.Somewhere t) (h : s.step x = some s')
    (hwire : s.WireStep s') (ht : t ∈ s'.keys) : s'.Somewhere t := by
  obtain hb | hin | ⟨j, hj, htag, hw⟩ | hrep := hl
  · exact .inl (step_broken h hb)
  · cases hwire with
    | same hin' _ _ => exact .inr (.inl (hin' ▸ hin))
    | write _ _ hin' _ _ =>
      refine .inr (.inl ?_)
      rw [hin', List.map_append]
      exact List.mem_append_left _ hin
    | @read m hin' hjobs _ =>
      rw [hin', List.map_cons] at hin
      obtain rfl | hin := List.mem_cons.mp hin
      · refine .inr (.inr (.inl ⟨⟨m.tag, m.data, none, false⟩, ?_, rfl, rfl⟩))
        rw [hjobs]
        exact List.mem_append_right _ (List.mem_singleton_self _)
      · exact .inr (.inl hin)
    | serve _ hin' _ _ => exact .inr (.inl (hin' ▸ hin))
    | answer _ hin' _ _ => exact .inr (.inl (hin' ▸ hin))
    | readReply _ hin' _ _ _ => exact .inr (.inl (hin' ▸ hin))
    | cut _ _ _ hb => exact .inl hb
  · cases hwire with
    | same _ hjobs _ => exact .inr (.inr (.inl ⟨j, hjobs ▸ hj, htag, hw⟩))
    | write _ _ _ hjobs _ => exact .inr (.inr (.inl ⟨j, hjobs ▸ hj, htag, hw⟩))
    | read _ hjobs _ => exact .inr (.inr (.inl ⟨j, hjobs ▸ List.mem_append_left _ hj, htag, hw⟩))
    | @serve i rep ok t' req hi _ hjobs _ =>
      refine .inr (.inr (.inl ?_))
      by_cases hji : j = ⟨t', req, none, false⟩
      · exact ⟨_, hjobs ▸ mem_set_of hi, by rw [← htag, hji], rfl⟩
      · exact ⟨j, hjobs ▸ mem_set_of_ne hi hj hji, htag, hw⟩
    | @answer i rep ok t' req hi _ hjobs hrep =>
      by_cases hji : j = ⟨t', req, some (rep, ok), false⟩
      · by_cases hb : s.broken = true
        · exact .inl (step_broken h hb)
        · refine .inr (.inr (.inr ?_))
          rw [hrep, write, if_neg hb, List.map_append, ← htag, hji]
          exact List.mem_append_right _ (List.mem_singleton_self _)
      · exact .inr (.inr (.inl ⟨j, hjobs ▸ mem_set_of_ne hi hj hji, htag, hw⟩))
    | readReply _ _ hjobs _ _ => exact .inr (.inr (.inl ⟨j, hjobs ▸ hj, htag, hw⟩))
    | cut _ _ _ hb => exact .inl hb
  · cases hwire with
    | same _ _ hrep' => exact .inr (.inr (.inr (hrep' ▸ hrep)))
    | write _ _ _ _ hrep' => exact .inr (.inr (.inr (hrep' ▸ hrep)))
    | read _ _ hrep' => exact .inr (.inr (.inr (hrep' ▸ hrep)))
    | serve _ _ _ hrep' => exact .inr (.inr (.inr (hrep' ▸ hrep)))
    | answer _ _ _ hrep' =>
      by_cases hb : s.broken = true
      · exact .inl (step_broken h hb)
      · refine .inr (.inr (.inr ?_))
        rw [hrep', write, if_neg hb, List.map_append]
        exact List.mem_append_left _ hrep
    | @readReply m _ _ _ hrep' hmap =>
      rw [hrep', List.map_cons] at hrep
      refine .inr (.inr (.inr ((List.mem_cons.mp hrep).resolve_left ?_)))
      rintro rfl
      obtain ⟨e, he, htag⟩ := List.mem_map.mp ht
      rw [hmap] at he
      exact of_decide_eq_true (List.mem_filter.mp he).2 htag
    | cut _ _ _ hb => exact .inl hb

namespace Located

theorem initial (init : B) : (initial init).Located where
  mapped := .initial init
  located _ _ h := by cases h
  ended h := absurd rfl h

theorem step (h : s.Located) (hst : s.step x = some s') (hx : s.Counts x) : s'.Located := by
  have hm := h.mapped.step hst hx
  have hwire := step_wires hst h.mapped.matched.first
  refine ⟨hm, fun k c hk hp hmem => ?_, step_ended hst h.ended⟩
  have hmem' : (c.tag, k) ∈ s.callMap := by
    refine (callMap_of_step hst hmem).resolve_right ?_
    rintro ⟨req, t, hk'⟩
    rw [hk, Option.some.injEq] at hk'
    rw [hk'] at hp
    cases hp
  obtain hk' | ⟨req, rfl, hk'⟩ := waiting_of_step hst hk hp
  · exact (h.located k c hk' hp hmem').step hst hwire (keys_of_mem hmem)
  · exact somewhere_of_write h.mapped.matched hst hk'

theorem of_reach {init : B} (hs : (machine init).Reach Counts s) : s.Located :=
  hs.invariant (fun s h => by cases h; exact .initial init) fun _ _ _ _ h hx hst => h.step hst hx

end Located

/-! ## Something can be done -/

/-- A step of the client or the server is possible. -/
def Can (s : Demux B) : Prop := ∃ x : Action B, x.internal = true ∧ (s.step x).isSome

/-- The reader goes on, if there is something to read or the connection has broken off. -/
theorem can_of_reader (h : s.Mapped) {t : UInt32} (ht : t ∈ s.keys)
    (hread : s.broken = true ∨ s.replies ≠ []) : s.Can := by
  cases hclnt : s.clnt with
  | reading =>
    cases hrep : s.replies with
    | nil =>
      have hb := hread.resolve_right (not_not.mpr hrep)
      exact ⟨.readErr, rfl, by simp [step, readErr, hclnt, hb, hrep]⟩
    | cons m rest => exact ⟨.readReply, rfl, by simp [step, readReply, hclnt, hrep]⟩
  | sending k r rest =>
    obtain ⟨⟨req, t, p⟩, hk, hp, -⟩ := h.sending k r rest hclnt
    cases p with
    | enqueued => exact ⟨.write k, rfl, by simp [step, writeCall, hk]⟩
    | waiting => exact ⟨.deliver, rfl, by simp [step, deliver, hclnt, hk]⟩
    | _ => exact hp.elim
  | closing => exact ⟨.closeMap, rfl, by simp [step, closeMap, hclnt]⟩
  | listing => exact ⟨.list s.keys, rfl, by simp [step, list, hclnt, keys]⟩
  | failing ts =>
    cases ts with
    | nil =>
      obtain ⟨-, -, hiff⟩ := h.failing [] (by rw [hclnt]; rfl)
      exact absurd ((hiff t).mpr ht) List.not_mem_nil
    | cons t' ts => exact ⟨.failNext, rfl, by simp [step, failNext, hclnt]⟩
  | fatal => exact absurd hclnt h.alive

/-- As long as a call has not returned, something can be done. -/
theorem can_of_call (h : s.Located) {k : ℕ} {c : Call B} (hk : s.calls[k]? = some c)
    (hc : ¬ c.phase.Done) : s.Can := by
  obtain ⟨req, t, p⟩ := c
  cases p with
  | entered => exact ⟨.tag k, rfl, by simp [step, tag, hk]⟩
  | tagged =>
    refine ⟨.put k, rfl, ?_⟩
    simp only [step, put, hk]
    split <;> rfl
  | enqueued => exact ⟨.write k, rfl, by simp [step, writeCall, hk]⟩
  | returned r => exact absurd trivial hc
  | refused => exact absurd trivial hc
  | waiting =>
    obtain hmem | ⟨r, rest, hs⟩ := h.mapped.opened k _ hk trivial
    · have hreader := can_of_reader h.mapped (keys_of_mem hmem)
      obtain hb | hin | ⟨⟨t', req', result, written⟩, hj, -, hw⟩ | hrep := h.located k _ hk rfl hmem
      · exact hreader (.inl hb)
      · have hne : s.inbound ≠ [] := by
          rintro hnil
          rw [hnil] at hin
          exact List.not_mem_nil hin
        cases hsrv : s.srv with
        | accepting =>
          rw [inbound_accepting hsrv] at hne
          have hne : s.requests ≠ [] := fun hnil => hne (by rw [hnil]; rfl)
          obtain ⟨m, rest, hreq⟩ := List.exists_cons_of_ne_nil hne
          exact ⟨.accept, rfl, by simp [step, accept, hsrv, hreq]⟩
        | reading =>
          rw [inbound_of_ne (by rw [hsrv]; exact SrvReader.noConfusion)] at hne
          obtain ⟨m, rest, hreq⟩ := List.exists_cons_of_ne_nil hne
          exact ⟨.readRequest, rfl, by simp [step, readRequest, hsrv, hreq]⟩
        | ended => exact hreader (.inl (h.ended (by rw [hsrv]; rintro ⟨⟩) (by rw [hsrv]; rintro ⟨⟩)))
        | fatal => exact hreader (.inl (h.ended (by rw [hsrv]; rintro ⟨⟩) (by rw [hsrv]; rintro ⟨⟩)))
      · obtain ⟨i, hi⟩ := List.mem_iff_getElem?.mp hj
        cases hw
        cases result with
        | none => exact ⟨.serve i req' true, rfl, by simp [step, serve, hi]⟩
        | some result => exact ⟨.answer i, rfl, by simp [step, answer, hi]⟩
      · refine hreader (.inr fun hnil => ?_)
        rw [hnil] at hrep
        exact List.not_mem_nil hrep
    · exact ⟨.deliver, rfl, by simp [step, deliver, hs, hk]⟩

/-! ## And only so much -/

theorem sum_set {α : Type} {l : List α} {i : ℕ} {a b : α} (h : l[i]? = some a) (f : α → ℕ) :
    ((l.set i b).map f).sum + f a = (l.map f).sum + f b := by
  induction l generalizing i with
  | nil => cases h
  | cons x l ih =>
    cases i with
    | zero =>
      cases h
      simp only [List.set_cons_zero, List.map_cons, List.sum_cons]
      omega
    | succ i =>
      have ih := ih h
      simp only [List.set_cons_succ, List.map_cons, List.sum_cons]
      omega

def CallPhase.work : CallPhase B → ℕ
  | .entered => 10
  | .tagged => 9
  | .enqueued => 6
  | _ => 0

def Job.work (j : Job B) : ℕ := if j.written then 0 else if j.result.isSome then 3 else 4

/-- The work of the reader, with `n` calls in the map. -/
def ClntReader.work (n : ℕ) : ClntReader B → ℕ
  | .reading => 2 * n + 3
  | .sending _ _ none => 2 * n + 4
  | .sending _ _ (some ts) => 2 * ts.length + 1
  | .closing => 2 * n + 2
  | .listing => 2 * n + 1
  | .failing ts => 2 * ts.length
  | .fatal => 0

def SrvReader.work : SrvReader → ℕ
  | .accepting => 2
  | .reading => 1
  | _ => 0

/-- What the client and the server have still to do, at most. -/
def work (s : Demux B) : ℕ :=
  (s.calls.map fun c => c.phase.work).sum + 5 * s.requests.length + (s.jobs.map Job.work).sum +
    2 * s.replies.length + s.clnt.work s.callMap.length + s.srv.work

theorem length_write (l : List (Msg B)) (m : Msg B) : (s.write l m).length ≤ l.length + 1 := by
  unfold write
  split
  · exact Nat.le_succ _
  · rw [List.length_append]
    rfl

theorem reply_work (s : Demux B) (t : UInt32) (r : Reply B) (rest : Option (List UInt32)) {n : ℕ}
    (hn : (ClntReader.sending 0 r rest).work s.callMap.length ≤ n) :
    (s.reply t r rest).work + s.clnt.work s.callMap.length ≤ s.work + n := by
  unfold reply removeCall
  cases s.callMap.find? fun e => e.1 = t with
  | none =>
    simp only [Option.map_none, work, ClntReader.work]
    omega
  | some e =>
    have hle := List.length_filter_le (fun e : UInt32 × ℕ => decide (e.1 ≠ t)) s.callMap
    simp only [Option.map_some, work]
    cases rest with
    | none =>
      simp only [ClntReader.work] at hn ⊢
      omega
    | some ts =>
      simp only [ClntReader.work] at hn ⊢
      omega

/-- A step of the client or the server lowers the work. -/
theorem work_lt (h : s.step x = some s') (hx : x.internal = true) : s'.work < s.work := by
  cases stepped h with
  | call => cases hx
  | cut => cases hx
  | close _ => cases hx
  | @tag k req t hk =>
    have hsum := sum_set (b := ⟨req, s.nextTag, .tagged⟩) hk fun c => c.phase.work
    simp only [work, setCall, CallPhase.work] at hsum ⊢
    omega
  | @refuse k req t hk _ =>
    have hsum := sum_set (b := ⟨req, t, .refused⟩) hk fun c => c.phase.work
    simp only [work, setCall, CallPhase.work] at hsum ⊢
    omega
  | @put k req t hk _ =>
    have hsum := sum_set (b := ⟨req, t, .enqueued⟩) hk fun c => c.phase.work
    have hle := List.length_filter_le (fun e : UInt32 × ℕ => decide (e.1 ≠ t)) s.callMap
    have hclnt : s.clnt.work (putCall s.callMap t k).length ≤ s.clnt.work s.callMap.length + 2 := by
      rw [putCall, List.length_cons]
      cases s.clnt with
      | sending k r rest => cases rest <;> simp only [ClntReader.work] <;> omega
      | _ => simp only [ClntReader.work]; omega
    simp only [work, setCall, CallPhase.work] at hsum ⊢
    omega
  | @write k req t hk =>
    have hsum := sum_set (b := ⟨req, t, .waiting⟩) hk fun c => c.phase.work
    have hlen := length_write (s := s) s.requests ⟨t, req, true⟩
    simp only [work, setCall, CallPhase.work] at hsum ⊢
    omega
  | accept hsrv hreq =>
    simp only [work, hsrv, hreq, List.length_cons, SrvReader.work]
    omega
  | readRequest hsrv hreq =>
    simp only [work, hreq, List.length_cons, List.map_append, List.map_singleton, List.sum_append,
      List.sum_singleton, Job.work, Bool.false_eq_true, if_false, Option.isSome_none]
    omega
  | @serve i rep ok t req hi =>
    have hsum := sum_set (b := ⟨t, req, some (rep, ok), false⟩) hi Job.work
    simp only [work, setJob, Job.work, Bool.false_eq_true, if_false, Option.isSome_none,
      Option.isSome_some, if_true] at hsum ⊢
    omega
  | @answer i rep ok t req hi =>
    have hsum := sum_set (b := ⟨t, req, some (rep, ok), true⟩) hi Job.work
    have hlen := length_write (s := s) s.replies ⟨t, rep, ok⟩
    simp only [work, setJob, Job.work, Bool.false_eq_true, if_false, Option.isSome_some,
      if_true] at hsum ⊢
    omega
  | die _ _ hsrv =>
    simp only [work, hsrv, SrvReader.work]
    omega
  | endServer _ _ hsrv =>
    simp only [work, hsrv, SrvReader.work]
    omega
  | @readReply m rest hclnt hrep =>
    have hreply := reply_work { s with replies := rest } m.tag ⟨some m.data, m.ok, false⟩ none le_rfl
    simp only [work, hclnt, hrep, List.length_cons, ClntReader.work] at hreply ⊢
    omega
  | @deliver k r rest req t hs hk =>
    have hsum := sum_set (b := ⟨req, t, .returned r⟩) hk fun c => c.phase.work
    cases rest <;>
      simp only [work, setCall, CallPhase.work, hs, ClntReader.work, Option.elim_none,
        Option.elim_some] at hsum ⊢ <;> omega
  | readErr hs _ _ =>
    simp only [work, hs, ClntReader.work]
    omega
  | closeMap hs =>
    simp only [work, hs, ClntReader.work]
    omega
  | list hs hperm =>
    have hlen := hperm.length_eq
    rw [List.length_map] at hlen
    simp only [work, hs, ClntReader.work, hlen]
    omega
  | @failNext t ts hs =>
    have hreply := reply_work s t failure (some ts) le_rfl
    simp only [hs, List.length_cons, ClntReader.work] at hreply ⊢
    omega

/-- **Every call returns**: when no more calls are made, the client and the server can take only so
many steps, and where they can take no more, every call of `SendReceive` has returned. -/
theorem calls_return {init : B} {xs : List (Action B)} (hs : (machine init).Reach Counts s)
    (hrun : (machine init).run (fun s x => x.internal = true ∧ s.Counts x) s xs = some s') :
    xs.length ≤ s.work ∧ (¬ s'.Can → ∀ c ∈ s'.calls, c.phase.Done) := by
  induction xs generalizing s with
  | nil =>
    cases hrun
    refine ⟨Nat.zero_le _, fun hcan c hc => ?_⟩
    obtain ⟨k, hk⟩ := List.mem_iff_getElem?.mp hc
    by_contra hdone
    exact hcan (can_of_call (Located.of_reach hs) hk hdone)
  | cons x xs ih =>
    simp only [Machine.run] at hrun
    split at hrun
    · rename_i hok
      obtain ⟨s₁, hst, hrun⟩ := Option.bind_eq_some_iff.mp hrun
      obtain ⟨hlen, hdone⟩ := ih (.step hs hok.2 hst) hrun
      refine ⟨?_, hdone⟩
      have hlt := work_lt hst hok.1
      rw [List.length_cons]
      omega
    · cases hrun

/-- The connection breaks off after the first of two requests. -/
theorem calls_return_cut : ∃ s s' : Demux ℕ, 8 ≤ s.work ∧
    s'.calls = [⟨5, 1, .returned ⟨some 50, true, false⟩⟩, ⟨6, 2, .returned failure⟩] := by
  obtain ⟨s, hs, hv⟩ := (machine 9).reach_of_run Counts
    (f := fun s => ((machine 9).run (fun s x => x.internal = true ∧ s.Counts x) s
      [.readReply, .deliver, .readErr, .closeMap, .list [2], .failNext, .deliver,
        .endServer]).map (·.calls))
    (v := some [⟨5, 1, .returned ⟨some 50, true, false⟩⟩, ⟨6, 2, .returned failure⟩])
    [.call 5, .call 6, .tag 0, .tag 1, .put 1, .put 0, .write 0, .write 1, .accept, .readRequest,
      .serve 0 50 true, .answer 0, .cut 0 1] rfl rfl
  obtain ⟨s', hrun, hcalls⟩ := Option.map_eq_some_iff.mp hv
  exact ⟨s, s', (calls_return hs hrun).1, hcalls⟩

end CollabIde.Demux
