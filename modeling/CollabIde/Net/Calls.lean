import Mathlib.Data.List.Nodup
import CollabIde.Net.Demux

/-!
# Replies find their calls

As long as the counter of the tags has not run over (`Demux.Counts`), every tag belongs to one call
(`Tagged`). A request is on its way to the server or is a goroutine there, once (`Matched`), and a
reply is what the goroutine of its tag has got from `ServeRequest`. So a call returns what the
server has computed for its own request, once, or an error (`replies_match`), and the client never
stops at a reply without a call (`never_fatal`).
-/

namespace CollabIde

section Set

variable {α β : Type} {l : List α} {i j : ℕ} {a b x : α}

/-- What stands in a list at which one element has been replaced. -/
theorem getElem?_set_of (h : l[i]? = some a) :
    (l.set i b)[j]? = if j = i then some b else l[j]? := by
  rw [List.getElem?_set]
  by_cases hj : i = j
  · subst hj
    rw [if_pos rfl, if_pos (List.getElem?_eq_some_iff.mp h).1, if_pos rfl]
  · rw [if_neg hj, if_neg (Ne.symm hj)]

theorem mem_set_of (h : l[i]? = some a) : b ∈ l.set i b :=
  List.mem_of_getElem? (i := i) (by rw [getElem?_set_of h, if_pos rfl])

/-- The other elements stay. -/
theorem mem_set_of_ne (h : l[i]? = some a) (hx : x ∈ l) (hne : x ≠ a) : x ∈ l.set i b := by
  obtain ⟨j, hj⟩ := List.mem_iff_getElem?.mp hx
  refine List.mem_of_getElem? (i := j) ?_
  rw [getElem?_set_of h, if_neg, hj]
  rintro rfl
  rw [h, Option.some.injEq] at hj
  exact hne hj.symm

theorem map_set_same {f : α → β} (h : l[i]? = some a) (hf : f b = f a) :
    (l.set i b).map f = l.map f := by
  refine List.ext_getElem? fun j => ?_
  rw [List.getElem?_map, List.getElem?_map, getElem?_set_of h]
  split
  · rename_i hj
    rw [hj, h, Option.map_some, Option.map_some, hf]
  · rfl

end Set

namespace Demux

variable {B : Type}

/-- The number of tags that have been given out, as long as the counter has not run over. -/
def used (next : UInt32) : ℕ := if next = 0 then 2 ^ 32 else next.toNat

theorem used_succ {next : UInt32} (h : next ≠ 0) : used (next + 1) = used next + 1 := by
  have hnext : next.toNat ≠ 0 := fun h0 => h (UInt32.toNat_inj.mp h0)
  have hlt := next.toNat_lt
  have hsucc : (next + 1).toNat = (next.toNat + 1) % 2 ^ 32 := UInt32.toNat_add ..
  rw [used, used, if_neg h]
  split
  · rename_i hzero
    rw [hzero] at hsucc
    change 0 = _ at hsucc
    omega
  · rename_i hzero
    have hzero : (next + 1).toNat ≠ 0 := fun h0 => hzero (UInt32.toNat_inj.mp h0)
    omega

theorem toNat_lt_used {next : UInt32} (h : next ≠ 0) : next.toNat < used (next + 1) := by
  rw [used_succ h, used, if_neg h]
  exact Nat.lt_succ_self _

/-- The counter of the tags has not run over when a tag is given out. -/
def Counts (s : Demux B) : Action B → Prop
  | .tag _ => s.nextTag ≠ 0
  | _ => True

instance (s : Demux B) : DecidablePred s.Counts
  | .tag _ => inferInstanceAs (Decidable (_ ≠ _))
  | .call _ | .put _ | .write _ | .accept | .readRequest | .serve .. | .answer _ | .endServer
  | .readReply | .deliver | .readErr | .closeMap | .list _ | .failNext | .cut .. | .close =>
    .isTrue trivial

/-- The request has been written. -/
def CallPhase.Written : CallPhase B → Prop
  | .waiting | .returned _ => True
  | _ => False

/-- The caller is before or at its reply channel. -/
def CallPhase.Open : CallPhase B → Prop
  | .enqueued | .waiting => True
  | _ => False

/-- The next phase of a call, after it has a tag. -/
inductive CallPhase.Next : CallPhase B → CallPhase B → Prop
  | refuse : Next .tagged .refused
  | put : Next .tagged .enqueued
  | write : Next .enqueued .waiting
  | deliver {r : Reply B} : Next .waiting (.returned r)

section Invariant

variable (s : Demux B)

/-- The tags of the calls. -/
structure Tagged : Prop where
  untagged : ∀ (k : ℕ) (c : Call B), s.calls[k]? = some c → c.phase = .entered → c.tag = 0
  tagged : ∀ (k : ℕ) (c : Call B), s.calls[k]? = some c → c.phase ≠ .entered →
    c.tag ≠ 0 ∧ c.tag.toNat < used s.nextTag
  inj : ∀ (k k' : ℕ) (c c' : Call B), s.calls[k]? = some c → s.calls[k']? = some c' →
    c.tag = c'.tag → c.tag ≠ 0 → k = k'

/-- What a step does to the calls. -/
inductive CallsStep (s' : Demux B) : Prop
  | same : s'.calls = s.calls → s'.nextTag = s.nextTag → CallsStep s'
  | call {req : B} : s'.calls = s.calls ++ [⟨req, 0, .entered⟩] → s'.nextTag = s.nextTag →
    CallsStep s'
  | tag {k : ℕ} {req : B} {t : UInt32} : s.calls[k]? = some ⟨req, t, .entered⟩ → s.nextTag ≠ 0 →
    s'.calls = s.calls.set k ⟨req, s.nextTag, .tagged⟩ → s'.nextTag = s.nextTag + 1 →
    CallsStep s'
  | move {k : ℕ} {req : B} {t : UInt32} {p p' : CallPhase B} : s.calls[k]? = some ⟨req, t, p⟩ →
    p.Next p' → s'.calls = s.calls.set k ⟨req, t, p'⟩ → s'.nextTag = s.nextTag → CallsStep s'

/-- The request with the tag has been written. -/
def HasCall (t : UInt32) (req : B) : Prop :=
  ∃ (k : ℕ) (c : Call B), s.calls[k]? = some c ∧ c.tag = t ∧ c.req = req ∧ c.phase.Written

/-- The server has answered the request with the tag. -/
def Answered (t : UInt32) (rep : B) (ok : Bool) : Prop :=
  ∃ j ∈ s.jobs, j.tag = t ∧ j.result = some (rep, ok) ∧ j.written = true

/-- The requests that are on their way to the server's loop. -/
def inbound : List (Msg B) := if s.srv = .accepting then s.requests.tail else s.requests

/-- Requests become goroutines once, and replies are what these have got. -/
structure Matched : Prop where
  tags : s.Tagged
  first : s.srv = .accepting → s.requests = [] → s.broken = true
  inbound : ∀ m ∈ s.inbound, s.HasCall m.tag m.data
  job : ∀ j ∈ s.jobs, s.HasCall j.tag j.req
  once : (s.inbound.map Msg.tag ++ s.jobs.map Job.tag).Nodup
  reply : ∀ m ∈ s.replies, s.Answered m.tag m.data m.ok
  replyOnce : (s.replies.map Msg.tag).Nodup

end Invariant

variable {s s' : Demux B} {x : Action B}

theorem reply_calls (t : UInt32) (r : Reply B) (rest : Option (List UInt32)) :
    (s.reply t r rest).calls = s.calls ∧ (s.reply t r rest).nextTag = s.nextTag := by
  unfold reply
  split <;> exact ⟨rfl, rfl⟩

theorem step_calls (h : s.step x = some s') (hx : s.Counts x) : s.CallsStep s' := by
  cases stepped h with
  | call => exact .call rfl rfl
  | tag hk => exact .tag hk hx rfl rfl
  | refuse hk _ => exact .move hk .refuse rfl rfl
  | put hk _ => exact .move hk .put rfl rfl
  | write hk => exact .move hk .write rfl rfl
  | deliver _ hk => exact .move hk .deliver rfl rfl
  | readReply _ _ =>
    obtain ⟨hcalls, hnext⟩ := reply_calls (s := { s with replies := _ }) _ _ _
    exact .same hcalls hnext
  | failNext _ =>
    obtain ⟨hcalls, hnext⟩ := reply_calls (s := s) _ _ _
    exact .same hcalls hnext
  | _ => exact .same rfl rfl

theorem CallPhase.Next.ne {p p' : CallPhase B} (h : p.Next p') : p ≠ .entered ∧ p' ≠ .entered := by
  cases h <;> exact ⟨by rintro ⟨⟩, by rintro ⟨⟩⟩

namespace Tagged

theorem initial (init : B) : (initial init).Tagged where
  untagged _ _ h := by cases h
  tagged _ _ h := by cases h
  inj _ _ _ _ h := by cases h

theorem step (ht : s.Tagged) (h : s.step x = some s') (hx : s.Counts x) : s'.Tagged := by
  cases step_calls h hx with
  | same hcalls hnext =>
    refine ⟨?_, ?_, ?_⟩ <;> rw [hcalls]
    · exact ht.untagged
    · rw [hnext]
      exact ht.tagged
    · exact ht.inj
  | @call req hcalls hnext =>
    have hold {k : ℕ} {c : Call B} (hc : s'.calls[k]? = some c) :
        s.calls[k]? = some c ∨ c = ⟨req, 0, .entered⟩ := by
      rw [hcalls, List.getElem?_append] at hc
      split at hc
      · exact .inl hc
      · exact .inr (List.mem_singleton.mp (List.mem_of_getElem? hc))
    refine ⟨fun k c hc hp => ?_, fun k c hc hp => ?_, fun k k' c c' hc hc' htag hne => ?_⟩
    · obtain hc | rfl := hold hc
      · exact ht.untagged k c hc hp
      · rfl
    · obtain hc | rfl := hold hc
      · exact hnext ▸ ht.tagged k c hc hp
      · exact absurd rfl hp
    · obtain hc | rfl := hold hc
      · obtain hc' | rfl := hold hc'
        · exact ht.inj k k' c c' hc hc' htag hne
        · exact absurd htag hne
      · exact absurd rfl hne
  | @tag k₀ req t hk hzero hcalls hnext =>
    have hfresh {k : ℕ} {c : Call B} (hc : s.calls[k]? = some c) : c.tag ≠ s.nextTag := by
      by_cases hp : c.phase = .entered
      · rw [ht.untagged k c hc hp]
        exact hzero.symm
      · have hlt := (ht.tagged k c hc hp).2
        rw [used, if_neg hzero] at hlt
        exact fun heq => hlt.ne (congrArg UInt32.toNat heq)
    refine ⟨fun k c hc hp => ?_, fun k c hc hp => ?_, fun k k' c c' hc hc' htag hne => ?_⟩
    · rw [hcalls, getElem?_set_of hk] at hc
      split at hc
      · cases hc
        cases hp
      · exact ht.untagged k c hc hp
    · rw [hnext]
      rw [hcalls, getElem?_set_of hk] at hc
      split at hc
      · cases hc
        exact ⟨hzero, toNat_lt_used hzero⟩
      · obtain ⟨hne, hlt⟩ := ht.tagged k c hc hp
        rw [used_succ hzero]
        exact ⟨hne, by omega⟩
    · rw [hcalls, getElem?_set_of hk] at hc hc'
      split at hc <;> split at hc'
      · rename_i hk₁ hk₂
        rw [hk₁, hk₂]
      · cases hc
        exact absurd htag.symm (hfresh hc')
      · cases hc'
        exact absurd htag (hfresh hc)
      · exact ht.inj k k' c c' hc hc' htag hne
  | @move k₀ req t p p' hk hp hcalls hnext =>
    obtain ⟨hp₁, hp₂⟩ := hp.ne
    -- a call has its tag before and after
    have hold {k : ℕ} {c : Call B} (hc : s'.calls[k]? = some c) : ∃ c₀, s.calls[k]? = some c₀ ∧
        c₀.tag = c.tag ∧ (c₀.phase = .entered ↔ c.phase = .entered) := by
      rw [hcalls, getElem?_set_of hk] at hc
      split at hc
      · rename_i hk'
        cases hc
        exact ⟨⟨req, t, p⟩, hk' ▸ hk, rfl, iff_of_false hp₁ hp₂⟩
      · exact ⟨c, hc, rfl, .rfl⟩
    refine ⟨fun k c hc hp => ?_, fun k c hc hp => ?_, fun k k' c c' hc hc' htag hne => ?_⟩
    · obtain ⟨c₀, hc₀, htag, hiff⟩ := hold hc
      exact htag ▸ ht.untagged k c₀ hc₀ (hiff.mpr hp)
    · obtain ⟨c₀, hc₀, htag, hiff⟩ := hold hc
      rw [hnext, ← htag]
      exact ht.tagged k c₀ hc₀ (mt hiff.mp hp)
    · obtain ⟨c₀, hc₀, htag₀, -⟩ := hold hc
      obtain ⟨c₁, hc₁, htag₁, -⟩ := hold hc'
      exact ht.inj k k' c₀ c₁ hc₀ hc₁ (htag₀.trans (htag.trans htag₁.symm)) (htag₀ ▸ hne)

end Tagged

/-! ## Requests and replies -/

/-- What a step does to the requests, the goroutines and the replies. -/
inductive WireStep (s s' : Demux B) : Prop
  | same : s'.inbound = s.inbound → s'.jobs = s.jobs → s'.replies = s.replies → WireStep s s'
  | write {k : ℕ} {req : B} {t : UInt32} : s.calls[k]? = some ⟨req, t, .enqueued⟩ →
    s'.calls = s.calls.set k ⟨req, t, .waiting⟩ → s'.inbound = s.inbound ++ [⟨t, req, true⟩] →
    s'.jobs = s.jobs → s'.replies = s.replies → WireStep s s'
  | read {m : Msg B} : s.inbound = m :: s'.inbound →
    s'.jobs = s.jobs ++ [⟨m.tag, m.data, none, false⟩] → s'.replies = s.replies → WireStep s s'
  | serve {i : ℕ} {rep : B} {ok : Bool} {t : UInt32} {req : B} :
    s.jobs[i]? = some ⟨t, req, none, false⟩ → s'.inbound = s.inbound →
    s'.jobs = s.jobs.set i ⟨t, req, some (rep, ok), false⟩ → s'.replies = s.replies → WireStep s s'
  | answer {i : ℕ} {rep : B} {ok : Bool} {t : UInt32} {req : B} :
    s.jobs[i]? = some ⟨t, req, some (rep, ok), false⟩ → s'.inbound = s.inbound →
    s'.jobs = s.jobs.set i ⟨t, req, some (rep, ok), true⟩ →
    s'.replies = s.write s.replies ⟨t, rep, ok⟩ → WireStep s s'
  | readReply {m : Msg B} : s.clnt = .reading → s'.inbound = s.inbound → s'.jobs = s.jobs →
    s.replies = m :: s'.replies →
    s'.callMap = (s.callMap.filter fun e => e.1 ≠ m.tag) → WireStep s s'
  | cut : s'.inbound.Sublist s.inbound → s'.jobs = s.jobs → s'.replies.Sublist s.replies →
    s'.broken = true → WireStep s s'

theorem reply_wires (t : UInt32) (r : Reply B) (rest : Option (List UInt32)) :
    (s.reply t r rest).inbound = s.inbound ∧ (s.reply t r rest).jobs = s.jobs ∧
      (s.reply t r rest).replies = s.replies ∧ (s.reply t r rest).srv = s.srv ∧
      (s.reply t r rest).requests = s.requests ∧ (s.reply t r rest).broken = s.broken := by
  unfold reply
  split <;> exact ⟨rfl, rfl, rfl, rfl, rfl, rfl⟩

/-- After `reply` the tag is no longer in the map. -/
theorem reply_callMap (t : UInt32) (r : Reply B) (rest : Option (List UInt32)) :
    (s.reply t r rest).callMap = s.callMap.filter fun e => e.1 ≠ t := by
  unfold reply removeCall
  cases hfind : s.callMap.find? fun e => e.1 = t with
  | some e => rfl
  | none =>
    refine (List.filter_eq_self.mpr fun e he => ?_).symm
    have := List.find?_eq_none.mp hfind e he
    simpa using this

theorem inbound_accepting (h : s.srv = .accepting) : s.inbound = s.requests.tail := if_pos h

theorem inbound_of_ne (h : s.srv ≠ .accepting) : s.inbound = s.requests := if_neg h

theorem step_wires (h : s.step x = some s')
    (hfirst : s.srv = .accepting → s.requests = [] → s.broken = true) : WireStep s s' := by
  cases stepped h with
  | @write k req t hk =>
    by_cases hb : s.broken = true
    · refine .same ?_ rfl rfl
      simp only [inbound, write, setCall, hb, if_true]
    · refine .write hk rfl ?_ rfl rfl
      simp only [inbound, write, setCall, hb, if_false, Bool.false_eq_true]
      split
      · rename_i hsrv
        exact List.tail_append_of_ne_nil fun hnil => hb (hfirst hsrv hnil)
      · rfl
  | accept hsrv hreq =>
    refine .same ?_ rfl rfl
    rw [inbound_accepting hsrv, hreq, inbound_of_ne SrvReader.noConfusion]
    rfl
  | readRequest hsrv hreq =>
    refine .read ?_ rfl rfl
    rw [inbound_of_ne (by rw [hsrv]; exact SrvReader.noConfusion), hreq,
      inbound_of_ne (by rw [hsrv]; exact SrvReader.noConfusion)]
  | serve hi => exact .serve hi rfl rfl rfl
  | answer hi => exact .answer hi rfl rfl rfl
  | die _ hreq hsrv =>
    refine .same ?_ rfl rfl
    rw [inbound_accepting hsrv, hreq, inbound_of_ne SrvReader.noConfusion]
    rfl
  | endServer _ hreq hsrv =>
    refine .same ?_ rfl rfl
    rw [inbound_of_ne SrvReader.noConfusion,
      inbound_of_ne (by rw [hsrv]; exact SrvReader.noConfusion)]
  | @readReply m rest hclnt hrep =>
    obtain ⟨hin, hjobs, hreplies, -⟩ := reply_wires (s := { s with replies := rest }) m.tag
      ⟨some m.data, m.ok, false⟩ none
    exact .readReply hclnt hin hjobs (by rw [hrep, hreplies]) (reply_callMap _ _ _)
  | @failNext t ts _ =>
    obtain ⟨hin, hjobs, hreplies, -⟩ := reply_wires (s := s) t failure (some ts)
    exact .same hin hjobs hreplies
  | cut =>
    refine .cut ?_ rfl (List.take_sublist _ _) rfl
    unfold inbound
    split
    · exact (List.take_sublist _ _).tail
    · exact List.take_sublist _ _
  | _ => exact .same rfl rfl rfl

/-- A written request stays written. -/
theorem HasCall.step {t : UInt32} {req : B} (hc : s.HasCall t req) (h : s.step x = some s')
    (hx : s.Counts x) : s'.HasCall t req := by
  obtain ⟨k, c, hk, rfl, rfl, hw⟩ := hc
  cases step_calls h hx with
  | same hcalls _ => exact ⟨k, c, hcalls ▸ hk, rfl, rfl, hw⟩
  | call hcalls _ =>
    refine ⟨k, c, ?_, rfl, rfl, hw⟩
    rw [hcalls, List.getElem?_append_left (List.getElem?_eq_some_iff.mp hk).1, hk]
  | @tag k' _ _ hk' _ hcalls _ =>
    refine ⟨k, c, ?_, rfl, rfl, hw⟩
    rw [hcalls, getElem?_set_of hk', if_neg, hk]
    rintro rfl
    rw [hk', Option.some.injEq] at hk
    rw [← hk] at hw
    exact hw
  | @move k' req t p p' hk' hp hcalls _ =>
    by_cases hkk : k = k'
    · subst hkk
      rw [hk', Option.some.injEq] at hk
      subst hk
      refine ⟨k, ⟨req, t, p'⟩, by rw [hcalls, getElem?_set_of hk', if_pos rfl], rfl, rfl, ?_⟩
      cases hp with
      | refuse => exact hw
      | put => exact hw
      | write => trivial
      | deliver => trivial
    · exact ⟨k, c, by rw [hcalls, getElem?_set_of hk', if_neg hkk, hk], rfl, rfl, hw⟩

/-- An answer stays. -/
theorem Answered.step {t : UInt32} {rep : B} {ok : Bool} (ha : s.Answered t rep ok)
    (h : s.WireStep s') : s'.Answered t rep ok := by
  obtain ⟨j, hj, htag, hres, hw⟩ := ha
  refine ⟨j, ?_, htag, hres, hw⟩
  cases h with
  | same _ hjobs _ => exact hjobs ▸ hj
  | write _ _ _ hjobs _ => exact hjobs ▸ hj
  | read _ hjobs _ => exact hjobs ▸ List.mem_append_left _ hj
  | serve hi _ hjobs _ =>
    rw [hjobs]
    exact mem_set_of_ne hi hj fun hj => by rw [hj] at hw; cases hw
  | answer hi _ hjobs _ =>
    rw [hjobs]
    exact mem_set_of_ne hi hj fun hj => by rw [hj] at hw; cases hw
  | readReply _ _ hjobs _ _ => exact hjobs ▸ hj
  | cut _ hjobs _ _ => exact hjobs ▸ hj

namespace Matched

theorem initial (init : B) : (initial init).Matched where
  tags := .initial init
  first _ h := by cases h
  inbound _ h := by cases h
  job _ h := by cases h
  once := .nil
  reply _ h := by cases h
  replyOnce := .nil

/-- What has been answered is answered once. -/
theorem answered_unique (h : s.Matched) {i : ℕ} {j : Job B} (hi : s.jobs[i]? = some j)
    (hw : j.written = false) {rep : B} {ok : Bool} : ¬ s.Answered j.tag rep ok := by
  rintro ⟨j', hj', htag, -, hw'⟩
  obtain ⟨i', hi'⟩ := List.mem_iff_getElem?.mp hj'
  have hnodup := (List.nodup_append.mp h.once).2.1
  have hii : i = i' := by
    refine (List.getElem?_inj ?_ hnodup).mp ?_
    · rw [List.length_map]
      exact (List.getElem?_eq_some_iff.mp hi).1
    · rw [List.getElem?_map, List.getElem?_map, hi, hi', Option.map_some, Option.map_some, htag]
  rw [hii, hi', Option.some.injEq] at hi
  rw [hi, hw] at hw'
  cases hw'

/-- A call whose request has not been written is not at the server. -/
theorem notMem_of_enqueued (h : s.Matched) {k : ℕ} {req : B} {t : UInt32} {p : CallPhase B}
    (hk : s.calls[k]? = some ⟨req, t, p⟩) (hp : ¬ p.Written) (hne : p ≠ .entered) :
    t ∉ s.inbound.map Msg.tag ++ s.jobs.map Job.tag := by
  have ht := h.tags.tagged k _ hk hne
  have hnot {req' : B} : ¬ s.HasCall t req' := by
    rintro ⟨k', c, hk', htag, -, hw⟩
    have hkk := h.tags.inj k k' _ c hk hk' htag.symm ht.1
    rw [← hkk, hk, Option.some.injEq] at hk'
    subst hk'
    exact hp hw
  rw [List.mem_append, List.mem_map, List.mem_map]
  rintro (⟨m, hm, rfl⟩ | ⟨j, hj, rfl⟩)
  · exact hnot (h.inbound m hm)
  · exact hnot (h.job j hj)

theorem step_first (h : s.step x = some s')
    (hfirst : s.srv = .accepting → s.requests = [] → s.broken = true) (hsrv : s'.srv = .accepting)
    (hreq : s'.requests = []) : s'.broken = true := by
  cases stepped h with
  | write _ =>
    simp only [write, setCall] at hreq hsrv
    split at hreq
    · assumption
    · exact absurd hreq (List.append_ne_nil_of_right_ne_nil _ (List.cons_ne_nil _ _))
  | accept _ _ => cases hsrv
  | readRequest hreading _ => cases hsrv.symm.trans hreading
  | die _ _ _ => cases hsrv
  | endServer _ _ _ => cases hsrv
  | readReply _ _ =>
    obtain ⟨-, -, -, hsrv', hreq', hbroken⟩ := reply_wires (s := { s with replies := _ }) _ _ _
    exact hbroken.trans (hfirst (hsrv'.symm.trans hsrv) (hreq'.symm.trans hreq))
  | failNext _ =>
    obtain ⟨-, -, -, hsrv', hreq', hbroken⟩ := reply_wires (s := s) _ _ _
    exact hbroken.trans (hfirst (hsrv'.symm.trans hsrv) (hreq'.symm.trans hreq))
  | cut => rfl
  | _ => exact hfirst hsrv hreq

theorem step (hm : s.Matched) (h : s.step x = some s') (hx : s.Counts x) : s'.Matched := by
  have hwire := step_wires h hm.first
  have hcall {t : UInt32} {req : B} (hc : s.HasCall t req) : s'.HasCall t req := hc.step h hx
  have hold {m : Msg B} (hmem : m ∈ s.replies) : s'.Answered m.tag m.data m.ok :=
    (hm.reply m hmem).step hwire
  refine ⟨hm.tags.step h hx, ?_, ?_, ?_, ?_, ?_, ?_⟩
  · exact step_first h hm.first
  · intro m hmem
    cases hwire with
    | same hin _ _ => exact hcall (hm.inbound m (hin ▸ hmem))
    | @write k req t hk hcalls hin _ _ =>
      rw [hin] at hmem
      obtain hmem | hmem := List.mem_append.mp hmem
      · exact hcall (hm.inbound m hmem)
      · rw [List.mem_singleton.mp hmem]
        refine ⟨k, ⟨req, t, .waiting⟩, ?_, rfl, rfl, trivial⟩
        rw [hcalls, getElem?_set_of hk, if_pos rfl]
    | read hin _ _ => exact hcall (hm.inbound m (hin ▸ List.mem_cons_of_mem _ hmem))
    | serve _ hin _ _ => exact hcall (hm.inbound m (hin ▸ hmem))
    | answer _ hin _ _ => exact hcall (hm.inbound m (hin ▸ hmem))
    | readReply _ hin _ _ _ => exact hcall (hm.inbound m (hin ▸ hmem))
    | cut hin _ _ _ => exact hcall (hm.inbound m (hin.subset hmem))
  · intro j hj
    cases hwire with
    | same _ hjobs _ => exact hcall (hm.job j (hjobs ▸ hj))
    | write _ _ _ hjobs _ => exact hcall (hm.job j (hjobs ▸ hj))
    | @read m hin hjobs _ =>
      rw [hjobs] at hj
      obtain hj | hj := List.mem_append.mp hj
      · exact hcall (hm.job j hj)
      · rw [List.mem_singleton.mp hj]
        exact hcall (hm.inbound m (hin ▸ List.mem_cons_self ..))
    | serve hi _ hjobs _ =>
      rw [hjobs] at hj
      obtain hj | rfl := List.mem_or_eq_of_mem_set hj
      · exact hcall (hm.job j hj)
      · have hjob := hm.job _ (List.mem_of_getElem? hi)
        exact hcall hjob
    | answer hi _ hjobs _ =>
      rw [hjobs] at hj
      obtain hj | rfl := List.mem_or_eq_of_mem_set hj
      · exact hcall (hm.job j hj)
      · have hjob := hm.job _ (List.mem_of_getElem? hi)
        exact hcall hjob
    | readReply _ _ hjobs _ _ => exact hcall (hm.job j (hjobs ▸ hj))
    | cut _ hjobs _ _ => exact hcall (hm.job j (hjobs ▸ hj))
  · cases hwire with
    | same hin hjobs _ =>
      rw [hin, hjobs]
      exact hm.once
    | @write k req t hk _ hin hjobs _ =>
      have hnot := hm.notMem_of_enqueued hk id (by rintro ⟨⟩)
      rw [hin, hjobs, List.map_append, List.map_singleton, List.append_assoc]
      exact List.perm_middle.nodup_iff.mpr (List.nodup_cons.mpr ⟨hnot, hm.once⟩)
    | @read m hin hjobs _ =>
      have honce := hm.once
      rw [hin, List.map_cons, List.cons_append] at honce
      rw [hjobs, List.map_append, List.map_singleton, ← List.append_assoc]
      exact (List.perm_append_singleton _ _).nodup_iff.mpr honce
    | serve hi hin hjobs _ =>
      rw [hin, hjobs, map_set_same hi (by rfl)]
      exact hm.once
    | answer hi hin hjobs _ =>
      rw [hin, hjobs, map_set_same hi (by rfl)]
      exact hm.once
    | readReply _ hin hjobs _ _ =>
      rw [hin, hjobs]
      exact hm.once
    | cut hin hjobs _ _ =>
      rw [hjobs]
      exact hm.once.sublist ((hin.map _).append (List.Sublist.refl _))
  · intro m hmem
    cases hwire with
    | same _ _ hrep => exact hold (hrep ▸ hmem)
    | write _ _ _ _ hrep => exact hold (hrep ▸ hmem)
    | read _ _ hrep => exact hold (hrep ▸ hmem)
    | serve _ _ _ hrep => exact hold (hrep ▸ hmem)
    | answer hi _ hjobs hrep =>
      rw [hrep, write] at hmem
      split at hmem
      · exact hold hmem
      · obtain hmem | hmem := List.mem_append.mp hmem
        · exact hold hmem
        · rw [List.mem_singleton.mp hmem]
          exact ⟨_, hjobs ▸ mem_set_of hi, rfl, rfl, rfl⟩
    | readReply _ _ _ hrep _ => exact hold (hrep ▸ List.mem_cons_of_mem _ hmem)
    | cut _ _ hrep _ => exact hold (hrep.subset hmem)
  · cases hwire with
    | same _ _ hrep => exact hrep ▸ hm.replyOnce
    | write _ _ _ _ hrep => exact hrep ▸ hm.replyOnce
    | read _ _ hrep => exact hrep ▸ hm.replyOnce
    | serve _ _ _ hrep => exact hrep ▸ hm.replyOnce
    | @answer i rep ok t req hi _ _ hrep =>
      rw [hrep, write]
      split
      · exact hm.replyOnce
      · rw [List.map_append, List.map_singleton]
        refine (List.perm_append_singleton _ _).nodup_iff.mpr (List.nodup_cons.mpr ⟨?_, hm.replyOnce⟩)
        rw [List.mem_map]
        rintro ⟨m, hmem, htag⟩
        have hans := hm.reply m hmem
        rw [htag] at hans
        exact hm.answered_unique hi rfl hans
    | readReply _ _ _ hrep _ =>
      have honce := hm.replyOnce
      rw [hrep, List.map_cons] at honce
      exact (List.nodup_cons.mp honce).2
    | cut _ _ hrep _ => exact hm.replyOnce.sublist (hrep.map _)

end Matched

/-! ## The map of the calls -/

/-- The reader takes replies. -/
def ClntReader.InLoop : ClntReader B → Prop
  | .reading | .sending _ _ none => True
  | _ => False

/-- The calls that the reader has still to fail, once it has left its loop. -/
def ClntReader.rest : ClntReader B → Option (List UInt32)
  | .sending _ _ rest => rest
  | .failing ts => some ts
  | _ => none

section Invariant

variable (s)

/-- The tags of the map. -/
def keys : List UInt32 := s.callMap.map Prod.fst

/-- A reply for the call with the tag: the server's, or the failure after the loop. -/
def Good (t : UInt32) (r : Reply B) : Prop :=
  r = failure ∧ ¬ s.clnt.InLoop ∨
    ∃ rep, r.rep = some rep ∧ r.err = false ∧ s.Answered t rep r.ok

/-- The map has the calls that are before or at their reply channels. -/
structure Mapped : Prop where
  matched : s.Matched
  nodup : s.keys.Nodup
  entry : ∀ e ∈ s.callMap, ∃ c : Call B, s.calls[e.2]? = some c ∧ c.tag = e.1 ∧ c.phase.Open
  opened : ∀ (k : ℕ) (c : Call B), s.calls[k]? = some c → c.phase.Open →
    (c.tag, k) ∈ s.callMap ∨ ∃ r rest, s.clnt = .sending k r rest
  sending : ∀ k r rest, s.clnt = .sending k r rest → ∃ c : Call B, s.calls[k]? = some c ∧
    c.phase.Open ∧ c.tag ∉ s.keys ∧ s.Good c.tag r
  inLoop : s.clnt.InLoop → ∀ m ∈ s.replies, m.tag ∈ s.keys
  returned : ∀ (k : ℕ) (c : Call B) r, s.calls[k]? = some c → c.phase = .returned r → s.Good c.tag r
  listing : s.clnt = .listing → s.closed = true
  failing : ∀ ts, s.clnt.rest = some ts → s.closed = true ∧ ts.Nodup ∧ ∀ t, t ∈ ts ↔ t ∈ s.keys
  alive : s.clnt ≠ .fatal

end Invariant

/-- No call gets to its reply channel's queue, and none returns. -/
structure KeepsOpen (s s' : Demux B) : Prop where
  back : ∀ (k : ℕ) (c' : Call B), s'.calls[k]? = some c' → c'.phase.Open →
    ∃ c : Call B, s.calls[k]? = some c ∧ c.tag = c'.tag ∧ c.phase.Open
  opened : ∀ (k : ℕ) (c : Call B), s.calls[k]? = some c → c.phase.Open →
    ∃ c' : Call B, s'.calls[k]? = some c' ∧ c'.tag = c.tag ∧ c'.phase.Open
  returned : ∀ (k : ℕ) (c' : Call B) r, s'.calls[k]? = some c' → c'.phase = .returned r →
    s.calls[k]? = some c'

namespace KeepsOpen

theorem of_eq (h : s'.calls = s.calls) : s.KeepsOpen s' where
  back _ c' hk hp := ⟨c', h ▸ hk, rfl, hp⟩
  opened _ c hk hp := ⟨c, h ▸ hk, rfl, hp⟩
  returned _ _ _ hk _ := h ▸ hk

theorem of_call {req : B} (h : s'.calls = s.calls ++ [⟨req, 0, .entered⟩]) : s.KeepsOpen s' := by
  have hold {k : ℕ} {c : Call B} (hk : s'.calls[k]? = some c) :
      s.calls[k]? = some c ∨ c.phase = .entered := by
    rw [h, List.getElem?_append] at hk
    split at hk
    · exact .inl hk
    · rw [List.mem_singleton.mp (List.mem_of_getElem? hk)]
      exact .inr rfl
  refine ⟨fun k c hk hp => ?_, fun k c hk hp => ?_, fun k c r hk hp => ?_⟩
  · refine ⟨c, (hold hk).resolve_right fun heq => ?_, rfl, hp⟩
    rw [heq] at hp
    exact hp
  · refine ⟨c, ?_, rfl, hp⟩
    rw [h, List.getElem?_append_left (List.getElem?_eq_some_iff.mp hk).1, hk]
  · refine (hold hk).resolve_right fun heq => ?_
    rw [heq] at hp
    cases hp

theorem of_set {k : ℕ} {req : B} {t t' : UInt32} {p p' : CallPhase B}
    (hk : s.calls[k]? = some ⟨req, t, p⟩) (h : s'.calls = s.calls.set k ⟨req, t', p'⟩)
    (hopen : p'.Open ↔ p.Open) (htag : p.Open → t' = t) (hret : ∀ r, p' ≠ .returned r) :
    s.KeepsOpen s' := by
  have hget {k' : ℕ} (hne : k' ≠ k) : s'.calls[k']? = s.calls[k']? := by
    rw [h, getElem?_set_of hk, if_neg hne]
  have hself : s'.calls[k]? = some ⟨req, t', p'⟩ := by rw [h, getElem?_set_of hk, if_pos rfl]
  refine ⟨fun k' c hk' hp => ?_, fun k' c hk' hp => ?_, fun k' c r hk' hp => ?_⟩
  · by_cases hkk : k' = k
    · subst hkk
      rw [hself, Option.some.injEq] at hk'
      subst hk'
      exact ⟨_, hk, (htag (hopen.mp hp)).symm, hopen.mp hp⟩
    · exact ⟨c, hget hkk ▸ hk', rfl, hp⟩
  · by_cases hkk : k' = k
    · subst hkk
      rw [hk, Option.some.injEq] at hk'
      subst hk'
      exact ⟨_, hself, htag hp, hopen.mpr hp⟩
    · exact ⟨c, (hget hkk).trans hk', rfl, hp⟩
  · by_cases hkk : k' = k
    · subst hkk
      rw [hself, Option.some.injEq] at hk'
      subst hk'
      exact absurd hp (hret r)
    · exact hget hkk ▸ hk'

end KeepsOpen

theorem keys_of_mem {e : UInt32 × ℕ} (h : e ∈ s.callMap) : e.1 ∈ s.keys := List.mem_map_of_mem h

namespace Mapped

theorem initial (init : B) : (initial init).Mapped where
  matched := .initial init
  nodup := .nil
  entry _ h := by cases h
  opened _ _ h := by cases h
  sending _ _ _ h := by cases h
  inLoop _ _ h := by cases h
  returned _ _ _ h := by cases h
  listing h := by cases h
  failing _ h := by cases h
  alive h := by cases h

/-- A tag of the map is the tag of its entry's call. -/
theorem eq_of_tag (h : s.Mapped) {k : ℕ} {c : Call B} (hk : s.calls[k]? = some c)
    (hp : c.phase ≠ .entered) {e : UInt32 × ℕ} (he : e ∈ s.callMap) (htag : e.1 = c.tag) :
    e.2 = k := by
  obtain ⟨c', hc', htag', -⟩ := h.entry e he
  have ht := h.matched.tags.tagged k c hk hp
  exact h.matched.tags.inj e.2 k c' c hc' hk (htag'.trans htag) (by rw [htag', htag]; exact ht.1)

/-- A step that leaves the map and the reader, and opens no call. -/
theorem of_same (h : s.Mapped) (hm : s'.Matched) (hmap : s'.callMap = s.callMap)
    (hclnt : s'.clnt = s.clnt) (hclosed : s.closed = true → s'.closed = true)
    (hrep : s.clnt.InLoop → ∀ m ∈ s'.replies, m.tag ∈ s.keys)
    (hans : ∀ t rep ok, s.Answered t rep ok → s'.Answered t rep ok)
    (hkeeps : s.KeepsOpen s') : s'.Mapped := by
  have hkeys : s'.keys = s.keys := congrArg (List.map Prod.fst) hmap
  have hgood {t : UInt32} {r : Reply B} (hg : s.Good t r) : s'.Good t r := by
    obtain ⟨hr, hloop⟩ | ⟨rep, hrep, herr, ha⟩ := hg
    · exact .inl ⟨hr, by rwa [hclnt]⟩
    · exact .inr ⟨rep, hrep, herr, hans _ _ _ ha⟩
  refine ⟨hm, hkeys ▸ h.nodup, fun e he => ?_, fun k c hk hp => ?_, fun k r rest hs => ?_, ?_,
    fun k c r hk hp => hgood (h.returned k c r (hkeeps.returned k c r hk hp) hp),
    fun hl => hclosed (h.listing (hclnt ▸ hl)), fun ts hts => ?_, hclnt ▸ h.alive⟩
  · obtain ⟨c, hk, htag, hp⟩ := h.entry e (hmap ▸ he)
    obtain ⟨c', hk', htag', hp'⟩ := hkeeps.opened e.2 c hk hp
    exact ⟨c', hk', htag'.trans htag, hp'⟩
  · obtain ⟨c₀, hk₀, htag, hp₀⟩ := hkeeps.back k c hk hp
    rw [hmap, hclnt, ← htag]
    exact h.opened k c₀ hk₀ hp₀
  · obtain ⟨c, hk, hp, hnot, hg⟩ := h.sending k r rest (hclnt ▸ hs)
    obtain ⟨c', hk', htag', hp'⟩ := hkeeps.opened k c hk hp
    exact ⟨c', hk', hp', by rw [htag', hkeys]; exact hnot, htag' ▸ hgood hg⟩
  · rw [hclnt, hkeys]
    exact hrep
  · obtain ⟨hc, hts⟩ := h.failing ts (hclnt ▸ hts)
    rw [hkeys]
    exact ⟨hclosed hc, hts⟩

/-- `put`, while the map is open. -/
theorem of_put (h : s.Mapped) {k : ℕ} {req : B} {t : UInt32}
    (hk : s.calls[k]? = some ⟨req, t, .tagged⟩) (hc : s.closed = false)
    (hm : Matched { s.setCall k ⟨req, t, .enqueued⟩ with callMap := putCall s.callMap t k }) :
    Mapped { s.setCall k ⟨req, t, .enqueued⟩ with callMap := putCall s.callMap t k } := by
  generalize hs : { s.setCall k ⟨req, t, .enqueued⟩ with callMap := putCall s.callMap t k } = s'
    at hm ⊢
  have hcalls : s'.calls = s.calls.set k ⟨req, t, .enqueued⟩ := by rw [← hs]; rfl
  have hmap : s'.callMap = putCall s.callMap t k := by rw [← hs]
  have hclnt : s'.clnt = s.clnt := by rw [← hs]; rfl
  have hclosed : s'.closed = s.closed := by rw [← hs]; rfl
  have hrep : s'.replies = s.replies := by rw [← hs]; rfl
  have hjobs : s'.jobs = s.jobs := by rw [← hs]; rfl
  have hkeys : s'.keys = t :: s.keys.filter (· ≠ t) := by
    rw [keys, hmap, putCall, List.map_cons, keys, List.filter_map]
    rfl
  have ht := (h.matched.tags.tagged k _ hk (by rintro ⟨⟩)).1
  have hget {k' : ℕ} (hne : k' ≠ k) : s'.calls[k']? = s.calls[k']? := by
    rw [hcalls, getElem?_set_of hk, if_neg hne]
  have hne {k' : ℕ} {c : Call B} (hk' : s.calls[k']? = some c) (hp : c.phase ≠ .tagged) :
      k' ≠ k := by
    rintro rfl
    rw [hk, Option.some.injEq] at hk'
    exact hp (by rw [← hk'])
  have hopen {c : Call B} (hp : c.phase.Open) : c.phase ≠ .tagged := by
    intro heq
    rw [heq] at hp
    exact hp
  have hgood {t : UInt32} {r : Reply B} (hg : s.Good t r) : s'.Good t r := by
    unfold Good Answered at hg ⊢
    rwa [hclnt, hjobs]
  refine ⟨hm, ?_, fun e he => ?_, fun k' c hk' hp => ?_, fun k' r rest hsend => ?_,
    fun hloop m hmem => ?_, fun k' c r hk' hp => ?_, fun hl => ?_, fun ts hts => ?_, ?_⟩
  · rw [hkeys]
    exact List.nodup_cons.mpr ⟨by simp, h.nodup.filter _⟩
  · rw [hmap, putCall] at he
    obtain rfl | he := List.mem_cons.mp he
    · exact ⟨⟨req, t, .enqueued⟩, by rw [hcalls, getElem?_set_of hk, if_pos rfl], rfl, trivial⟩
    · obtain ⟨c, hc, htag, hp⟩ := h.entry e (List.mem_filter.mp he).1
      exact ⟨c, by rw [hget (hne hc (hopen hp)), hc], htag, hp⟩
  · by_cases hkk : k' = k
    · left
      subst hkk
      rw [hcalls, getElem?_set_of hk, if_pos rfl, Option.some.injEq] at hk'
      rw [← hk', hmap]
      exact List.mem_cons_self ..
    · rw [hget hkk] at hk'
      rw [hclnt, hmap]
      refine (h.opened k' c hk' hp).imp_left fun hmem => List.mem_cons_of_mem _ ?_
      refine List.mem_filter.mpr ⟨hmem, decide_eq_true fun htag => ?_⟩
      change c.tag = t at htag
      exact hkk (h.matched.tags.inj k' k c _ hk' hk htag (by rw [htag]; exact ht))
  · obtain ⟨c, hc, hp, hnot, hg⟩ := h.sending k' r rest (hclnt ▸ hsend)
    have hkk := hne hc (hopen hp)
    refine ⟨c, by rw [hget hkk, hc], hp, ?_, hgood hg⟩
    rw [hkeys]
    intro hmem
    obtain htag | hmem := List.mem_cons.mp hmem
    · exact hkk (h.matched.tags.inj k' k c _ hc hk htag (by rw [htag]; exact ht))
    · exact hnot (List.mem_filter.mp hmem).1
  · have hmem := h.inLoop (hclnt ▸ hloop) m (hrep ▸ hmem)
    rw [hkeys]
    by_cases htag : m.tag = t
    · exact htag ▸ List.mem_cons_self ..
    · exact List.mem_cons_of_mem _ (List.mem_filter.mpr ⟨hmem, decide_eq_true htag⟩)
  · by_cases hkk : k' = k
    · subst hkk
      rw [hcalls, getElem?_set_of hk, if_pos rfl, Option.some.injEq] at hk'
      rw [← hk'] at hp
      cases hp
    · exact hgood (h.returned k' c r (hget hkk ▸ hk') hp)
  · rw [hclosed]
    exact h.listing (hclnt ▸ hl)
  · have hclosed := (h.failing ts (hclnt ▸ hts)).1
    rw [hc] at hclosed
    cases hclosed
  · exact hclnt ▸ h.alive

/-- What `reply` does, if the tag is in the map. -/
theorem reply_eq (h : ∀ e ∈ s.callMap, ∃ c : Call B, s.calls[e.2]? = some c ∧ c.tag = e.1 ∧
    c.phase.Open) {t : UInt32} (ht : t ∈ s.keys) (r : Reply B) (rest : Option (List UInt32)) :
    ∃ (k : ℕ) (c : Call B), s.calls[k]? = some c ∧ c.tag = t ∧ c.phase.Open ∧ s.reply t r rest =
      { s with callMap := s.callMap.filter fun e => e.1 ≠ t, clnt := .sending k r rest } := by
  obtain ⟨e, he, htag⟩ := List.mem_map.mp ht
  cases hfind : s.callMap.find? fun e => e.1 = t with
  | none =>
    have hnone := List.find?_eq_none.mp hfind e he
    simp [htag] at hnone
  | some e' =>
    obtain ⟨c, hc, htag', hp⟩ := h e' (List.mem_of_find?_eq_some hfind)
    have htag'' := List.find?_some (p := fun e : UInt32 × ℕ => decide (e.1 = t)) hfind
    refine ⟨e'.2, c, hc, htag'.trans (of_decide_eq_true htag''), hp, ?_⟩
    simp only [reply, removeCall, hfind, Option.map_some]

/-- The reader has taken a call from the map. -/
theorem of_sending (h : s.Mapped) {k : ℕ} {c : Call B} (hk : s.calls[k]? = some c)
    (hp : c.phase.Open) {r : Reply B} {rest : Option (List UInt32)} (hm : s'.Matched)
    (hcalls : s'.calls = s.calls) (hclosed : s'.closed = s.closed)
    (hmap : s'.callMap = s.callMap.filter fun e => e.1 ≠ c.tag)
    (hclnt : s'.clnt = .sending k r rest) (hjobs : s'.jobs = s.jobs)
    (hnot : ∀ k r rest, s.clnt ≠ .sending k r rest) (hin : rest = none ↔ s.clnt.InLoop)
    (hgood : s'.Good c.tag r)
    (hrep : rest = none → ∀ m ∈ s'.replies, m.tag ∈ s.keys ∧ m.tag ≠ c.tag)
    (hrest : ∀ ts, rest = some ts → s.clnt = .failing (c.tag :: ts)) : s'.Mapped := by
  have hkeys : s'.keys = s.keys.filter (· ≠ c.tag) := by
    rw [keys, hmap, keys, List.filter_map]
    rfl
  have hmem {t : UInt32} : t ∈ s'.keys ↔ t ∈ s.keys ∧ t ≠ c.tag := by
    rw [hkeys, List.mem_filter, decide_eq_true_iff]
  have hloop : s'.clnt.InLoop ↔ s.clnt.InLoop := by
    rw [hclnt, ← hin]
    cases rest with
    | none => exact iff_of_true trivial rfl
    | some ts => exact iff_of_false id (by rintro ⟨⟩)
  refine ⟨hm, hkeys ▸ h.nodup.filter _, fun e he => ?_, fun k' c' hk' hp' => ?_,
    fun k' r' rest' hsend => ?_, fun hl m hmem' => ?_, fun k' c' r' hk' hp' => ?_, fun hl => ?_,
    fun ts hts => ?_, by rw [hclnt]; rintro ⟨⟩⟩
  · rw [hmap] at he
    rw [hcalls]
    exact h.entry e (List.mem_filter.mp he).1
  · rw [hcalls] at hk'
    obtain hmem' | ⟨r', rest', hsend⟩ := h.opened k' c' hk' hp'
    · by_cases htag : c'.tag = c.tag
      · have hne : c.phase ≠ .entered := fun heq => by rw [heq] at hp; exact hp
        have hkk : k' = k := h.eq_of_tag hk hne hmem' htag
        exact .inr ⟨r, rest, by rw [hclnt, hkk]⟩
      · left
        rw [hmap]
        exact List.mem_filter.mpr ⟨hmem', decide_eq_true htag⟩
    · exact absurd hsend (hnot _ _ _)
  · rw [hclnt] at hsend
    cases hsend
    exact ⟨c, hcalls ▸ hk, hp, fun hmem' => (hmem.mp hmem').2 rfl, hgood⟩
  · rw [hclnt] at hl
    cases rest with
    | none => exact hmem.mpr (hrep rfl m hmem')
    | some ts => exact hl.elim
  · obtain ⟨hr, hnl⟩ | ⟨rep, hrep', herr, j, hj, ha⟩ := h.returned k' c' r' (hcalls ▸ hk') hp'
    · exact .inl ⟨hr, mt hloop.mp hnl⟩
    · exact .inr ⟨rep, hrep', herr, j, hjobs ▸ hj, ha⟩
  · rw [hclnt] at hl
    cases hl
  · rw [hclnt] at hts
    change rest = some ts at hts
    obtain ⟨hc, hnodup, hiff⟩ := h.failing (c.tag :: ts) (by rw [hrest ts hts]; rfl)
    obtain ⟨hnot', hnodup⟩ := List.nodup_cons.mp hnodup
    refine ⟨hclosed ▸ hc, hnodup, fun t => ?_⟩
    rw [hmem, ← hiff t, List.mem_cons]
    constructor
    · exact fun ht => ⟨.inr ht, fun heq => hnot' (heq ▸ ht)⟩
    · exact fun ⟨ht, hne⟩ => ht.resolve_left hne

/-- The caller has taken its reply. -/
theorem of_deliver (h : s.Mapped) {k : ℕ} {r : Reply B} {rest : Option (List UInt32)} {req : B}
    {t : UInt32} (hs : s.clnt = .sending k r rest) (hk : s.calls[k]? = some ⟨req, t, .waiting⟩)
    (hm : s'.Matched) (hcalls : s'.calls = s.calls.set k ⟨req, t, .returned r⟩)
    (hclosed : s'.closed = s.closed) (hmap : s'.callMap = s.callMap)
    (hclnt : s'.clnt = rest.elim .reading .failing) (hjobs : s'.jobs = s.jobs)
    (hrep : s'.replies = s.replies) : s'.Mapped := by
  obtain ⟨c₀, hk₀, -, hnot, hg⟩ := h.sending k r rest hs
  rw [hk, Option.some.injEq] at hk₀
  subst hk₀
  have hkeys : s'.keys = s.keys := congrArg (List.map Prod.fst) hmap
  have hloop : s'.clnt.InLoop ↔ s.clnt.InLoop := by
    rw [hclnt, hs]
    cases rest <;> exact .rfl
  have hget {k' : ℕ} (hne : k' ≠ k) : s'.calls[k']? = s.calls[k']? := by
    rw [hcalls, getElem?_set_of hk, if_neg hne]
  have hself {c : Call B} (hk' : s'.calls[k]? = some c) : c = ⟨req, t, .returned r⟩ := by
    rw [hcalls, getElem?_set_of hk, if_pos rfl, Option.some.injEq] at hk'
    exact hk'.symm
  have hgood {t : UInt32} {r : Reply B} (hg : s.Good t r) : s'.Good t r := by
    unfold Good Answered at hg ⊢
    rwa [hloop, hjobs]
  refine ⟨hm, hkeys ▸ h.nodup, fun e he => ?_, fun k' c hk' hp => ?_, fun k' r' rest' hsend => ?_,
    fun hl m hmem => ?_, fun k' c r' hk' hp => ?_, fun hl => ?_, fun ts hts => ?_, ?_⟩
  · rw [hmap] at he
    obtain ⟨c, hc, htag, hp⟩ := h.entry e he
    refine ⟨c, ?_, htag, hp⟩
    rw [hget, hc]
    intro hkk
    rw [hkk, hk, Option.some.injEq] at hc
    subst hc
    refine hnot ?_
    rw [htag]
    exact keys_of_mem he
  · have hkk : k' ≠ k := by
      rintro rfl
      rw [hself hk'] at hp
      exact hp
    rw [hget hkk] at hk'
    obtain hmem | ⟨r', rest', hsend⟩ := h.opened k' c hk' hp
    · exact .inl (hmap ▸ hmem)
    · rw [hs] at hsend
      cases hsend
      exact absurd rfl hkk
  · rw [hclnt] at hsend
    cases rest <;> cases hsend
  · rw [hkeys]
    exact h.inLoop (hloop.mp hl) m (hrep ▸ hmem)
  · by_cases hkk : k' = k
    · subst hkk
      rw [hself hk'] at hp ⊢
      cases hp
      exact hgood hg
    · exact hgood (h.returned k' c r' (hget hkk ▸ hk') hp)
  · rw [hclnt] at hl
    cases rest <;> cases hl
  · have hts' : s.clnt.rest = some ts := by
      rw [hclnt] at hts
      rw [hs]
      cases rest with
      | none => cases hts
      | some ts' => exact hts
    rw [hclosed, hkeys]
    exact h.failing ts hts'
  · rw [hclnt]
    cases rest <;> rintro ⟨⟩

/-- The reader leaves its loop, and goes on to the calls that are to be failed. -/
theorem of_ended (h : s.Mapped) (hm : s'.Matched) (hcalls : s'.calls = s.calls)
    (hmap : s'.callMap = s.callMap) (hjobs : s'.jobs = s.jobs)
    (hnot : ∀ k r rest, s.clnt ≠ .sending k r rest)
    (hnot' : ∀ k r rest, s'.clnt ≠ .sending k r rest) (hl : ¬ s'.clnt.InLoop)
    (hlist : s'.clnt = .listing → s'.closed = true)
    (hrest : ∀ ts, s'.clnt.rest = some ts → s'.closed = true ∧ ts.Perm s.keys)
    (halive : s'.clnt ≠ .fatal) : s'.Mapped := by
  have hkeys : s'.keys = s.keys := congrArg (List.map Prod.fst) hmap
  refine ⟨hm, hkeys ▸ h.nodup, by rw [hmap, hcalls]; exact h.entry, fun k c hk hp => ?_,
    fun k r rest hs => absurd hs (hnot' k r rest), fun hloop => absurd hloop hl,
    fun k c r hk hp => ?_, hlist, fun ts hts => ?_, halive⟩
  · obtain hmem | ⟨r, rest, hs⟩ := h.opened k c (hcalls ▸ hk) hp
    · exact .inl (hmap ▸ hmem)
    · exact absurd hs (hnot k r rest)
  · obtain ⟨hr, -⟩ | ⟨rep, hrep, herr, j, hj, ha⟩ := h.returned k c r (hcalls ▸ hk) hp
    · exact .inl ⟨hr, hl⟩
    · exact .inr ⟨rep, hrep, herr, j, hjobs ▸ hj, ha⟩
  · obtain ⟨hc, hperm⟩ := hrest ts hts
    rw [hkeys]
    exact ⟨hc, hperm.nodup_iff.mpr h.nodup, fun t => hperm.mem_iff⟩

/-- A reply that the server writes has a call in the map, as long as the reader takes replies. -/
theorem key_of_answer (h : s.Mapped) {i : ℕ} {j : Job B} (hi : s.jobs[i]? = some j)
    (hw : j.written = false) (hloop : s.clnt.InLoop) : j.tag ∈ s.keys := by
  have hnot {r : Reply B} : ¬ s.Good j.tag r := by
    rintro (⟨-, hnl⟩ | ⟨rep, -, -, ha⟩)
    · exact hnl hloop
    · exact h.matched.answered_unique hi hw ha
  obtain ⟨k, c, hk, htag, -, hwritten⟩ := h.matched.job j (List.mem_of_getElem? hi)
  cases hp : c.phase with
  | waiting =>
    obtain hmem | ⟨r, rest, hs⟩ := h.opened k c hk (by rw [hp]; trivial)
    · exact htag ▸ keys_of_mem hmem
    · obtain ⟨c', hk', -, -, hg⟩ := h.sending k r rest hs
      rw [hk, Option.some.injEq] at hk'
      rw [← hk', htag] at hg
      exact absurd hg hnot
  | returned r => exact absurd (htag ▸ h.returned k c r hk hp) hnot
  | _ =>
    rw [hp] at hwritten
    exact hwritten.elim

theorem step (h : s.Mapped) (hst : s.step x = some s') (hx : s.Counts x) : s'.Mapped := by
  have hm := h.matched.step hst hx
  have hwire := step_wires hst h.matched.first
  have hans (t : UInt32) (rep : B) (ok : Bool) (ha : s.Answered t rep ok) : s'.Answered t rep ok :=
    ha.step hwire
  cases stepped hst with
  | call => exact h.of_same hm rfl rfl id h.inLoop hans (.of_call rfl)
  | tag hk =>
    exact h.of_same hm rfl rfl id h.inLoop hans (.of_set hk rfl .rfl (fun hp => hp.elim)
      (by rintro r ⟨⟩))
  | refuse hk _ =>
    exact h.of_same hm rfl rfl id h.inLoop hans (.of_set hk rfl .rfl (fun hp => hp.elim)
      (by rintro r ⟨⟩))
  | put hk hc => exact h.of_put hk hc hm
  | write hk =>
    exact h.of_same hm rfl rfl id h.inLoop hans (.of_set hk rfl .rfl (fun _ => rfl)
      (by rintro r ⟨⟩))
  | answer hi =>
    refine h.of_same hm rfl rfl id (fun hloop m hmem => ?_) hans (.of_eq rfl)
    simp only [write] at hmem
    split at hmem
    · exact h.inLoop hloop m hmem
    · obtain hmem | hmem := List.mem_append.mp hmem
      · exact h.inLoop hloop m hmem
      · rw [List.mem_singleton.mp hmem]
        exact h.key_of_answer hi rfl hloop
  | @readReply m rest hclnt hrep =>
    have hmem : m ∈ s.replies := hrep ▸ List.mem_cons_self ..
    have hloop : s.clnt.InLoop := by rw [hclnt]; trivial
    obtain ⟨k, c, hk, htag, hp, heq⟩ := reply_eq (s := { s with replies := rest }) h.entry
      (h.inLoop hloop m hmem) ⟨some m.data, m.ok, false⟩ none
    have hgood := hans _ _ _ (h.matched.reply m hmem)
    rw [heq] at hm hgood ⊢
    refine h.of_sending (r := ⟨some m.data, m.ok, false⟩) hk hp hm rfl rfl (by rw [htag]) rfl rfl
      (by rw [hclnt]; rintro k r rest ⟨⟩) (iff_of_true rfl hloop)
      (.inr ⟨m.data, rfl, rfl, htag ▸ hgood⟩) (fun _ m' hm' => ?_) (by rintro ts ⟨⟩)
    have honce := h.matched.replyOnce
    rw [hrep, List.map_cons] at honce
    refine ⟨h.inLoop hloop m' (hrep ▸ List.mem_cons_of_mem m hm'), fun heq' => ?_⟩
    refine (List.nodup_cons.mp honce).1 ?_
    rw [← htag, ← heq']
    exact List.mem_map_of_mem hm'
  | deliver hs hk => exact h.of_deliver hs hk hm rfl rfl rfl rfl rfl rfl
  | readErr hs _ _ =>
    exact h.of_ended hm rfl rfl rfl (by rw [hs]; rintro k r rest ⟨⟩) (by rintro k r rest ⟨⟩) id
      (by rintro ⟨⟩) (by rintro ts ⟨⟩) (by rintro ⟨⟩)
  | closeMap hs =>
    exact h.of_ended hm rfl rfl rfl (by rw [hs]; rintro k r rest ⟨⟩) (by rintro k r rest ⟨⟩) id
      (fun _ => rfl) (by rintro ts ⟨⟩) (by rintro ⟨⟩)
  | list hs hperm =>
    refine h.of_ended hm rfl rfl rfl (by rw [hs]; rintro k r rest ⟨⟩) (by rintro k r rest ⟨⟩) id
      (by rintro ⟨⟩) (fun ts hts => ?_) (by rintro ⟨⟩)
    cases hts
    exact ⟨h.listing hs, hperm⟩
  | @failNext t ts hs =>
    obtain ⟨hc, hnodup, hiff⟩ := h.failing (t :: ts) (by rw [hs]; rfl)
    obtain ⟨k, c, hk, rfl, hp, heq⟩ := reply_eq h.entry ((hiff t).mp (List.mem_cons_self ..))
      failure (some ts)
    rw [heq] at hm ⊢
    refine h.of_sending (r := failure) hk hp hm rfl rfl rfl rfl rfl
      (by rw [hs]; rintro k r rest ⟨⟩) (iff_of_false (by rintro ⟨⟩) (by rw [hs]; exact id))
      (.inl ⟨rfl, id⟩) (by rintro ⟨⟩) fun ts' hts => ?_
    cases hts
    exact hs
  | cut =>
    exact h.of_same hm rfl rfl id
      (fun hloop m hmem => h.inLoop hloop m (List.mem_of_mem_take hmem)) hans (.of_eq rfl)
  | close _ => exact h.of_same hm rfl rfl (fun _ => rfl) h.inLoop hans (.of_eq rfl)
  | _ => exact h.of_same hm rfl rfl id h.inLoop hans (.of_eq rfl)

end Mapped

theorem mapped_of_reach {init : B} (hs : (machine init).Reach Counts s) : s.Mapped :=
  hs.invariant (fun s h => by cases h; exact .initial init) fun _ _ _ _ h hx hst => h.step hst hx

/-- The goroutines of the server for a call. -/
def jobsOf (s : Demux B) (c : Call B) : List (Job B) := s.jobs.filter fun j => j.tag = c.tag

/-- The server serves a request at most once. -/
theorem Matched.length_jobsOf_le (h : s.Matched) (c : Call B) : (s.jobsOf c).length ≤ 1 := by
  have hnodup := (List.nodup_append.mp h.once).2.1
  have hcount := List.nodup_iff_count_le_one.mp hnodup c.tag
  rw [List.count, List.countP_map, List.countP_eq_length_filter] at hcount
  refine le_of_eq_of_le (congrArg List.length (List.filter_congr fun j _ => ?_)) hcount
  exact (beq_eq_decide j.tag c.tag).symm

/-- It serves the request as it has been sent. -/
theorem Matched.req_of_mem_jobsOf (h : s.Matched) {k : ℕ} {c : Call B} {j : Job B}
    (hk : s.calls[k]? = some c) (hj : j ∈ s.jobsOf c) : j.req = c.req := by
  obtain ⟨hj, htag⟩ := List.mem_filter.mp hj
  obtain ⟨k', c', hk', htag', hreq, hwritten⟩ := h.job j hj
  have hne : c'.phase ≠ .entered := fun hp => by
    rw [hp] at hwritten
    exact hwritten
  have hkk := h.tags.inj k' k c' c hk' hk (htag'.trans (of_decide_eq_true htag))
    (h.tags.tagged k' c' hk' hne).1
  rw [hkk, hk, Option.some.injEq] at hk'
  rw [hk', hreq]

/-- What `SendReceive` returns. -/
theorem Mapped.returned_eq (h : s.Mapped) {k : ℕ} {c : Call B} {r : Reply B}
    (hk : s.calls[k]? = some c) (hr : c.phase = .returned r) : r = failure ∨
      ∃ j rep ok, s.jobsOf c = [j] ∧ j.result = some (rep, ok) ∧ r = ⟨some rep, ok, false⟩ := by
  obtain ⟨hfail, -⟩ | ⟨rep, hrep, herr, j, hj, htag, hres, -⟩ := h.returned k c r hk hr
  · exact .inl hfail
  · have hj : j ∈ s.jobsOf c := List.mem_filter.mpr ⟨hj, decide_eq_true htag⟩
    obtain ⟨j', hj'⟩ := List.length_eq_one_iff.mp
      (le_antisymm (h.matched.length_jobsOf_le c) (List.length_pos_of_mem hj))
    rw [hj', List.mem_singleton] at hj
    refine .inr ⟨j, rep, r.ok, hj ▸ hj', hres, ?_⟩
    obtain ⟨rep', ok, err⟩ := r
    cases hrep
    cases herr
    rfl

/-- **A reply is for its call**: the server serves a request at most once, as it has been sent, and
`SendReceive` returns what the server has got for it, or the failure of the connection. -/
theorem replies_match {init : B} (hs : (machine init).Reach Counts s) {k : ℕ} {c : Call B}
    (hk : s.calls[k]? = some c) :
    (s.jobsOf c).length ≤ 1 ∧ (∀ j ∈ s.jobsOf c, j.req = c.req) ∧
      ∀ r, c.phase = .returned r → r = failure ∨
        ∃ j rep ok, s.jobsOf c = [j] ∧ j.result = some (rep, ok) ∧ r = ⟨some rep, ok, false⟩ := by
  have h := mapped_of_reach hs
  exact ⟨h.matched.length_jobsOf_le c, fun _ hj => h.matched.req_of_mem_jobsOf hk hj,
    fun _ hr => h.returned_eq hk hr⟩

/-- Two calls, answered in the other order. -/
def twoCalls : List (Action ℕ) :=
  [.call 5, .call 6, .tag 0, .tag 1, .put 1, .put 0, .write 0, .write 1, .accept, .readRequest,
    .readRequest, .serve 1 60 true, .serve 0 50 true, .answer 1, .answer 0, .readReply, .deliver,
    .readReply, .deliver]

theorem replies_match_two : ∃ (s : Demux ℕ) (c : Call ℕ), s.calls[0]? = some c ∧ c.req = 5 ∧
    c.phase = .returned ⟨some 50, true, false⟩ ∧ (s.jobsOf c).length ≤ 1 := by
  obtain ⟨s, hs, hv⟩ := (machine 9).reach_of_run Counts
    (f := fun s => s.calls[0]?) (v := some ⟨5, 1, .returned ⟨some 50, true, false⟩⟩)
    twoCalls rfl rfl
  exact ⟨s, _, hv, rfl, rfl, (replies_match hs hv).1⟩

/-- **The client survives its replies**: no reply comes without a call. -/
theorem never_fatal {init : B} (hs : (machine init).Reach Counts s) : s.clnt ≠ .fatal :=
  (mapped_of_reach hs).alive

theorem never_fatal_two : ∃ s : Demux ℕ, s.replies = [] ∧ s.clnt ≠ .fatal := by
  obtain ⟨s, hs, hv⟩ := (machine 9).reach_of_run Counts (f := fun s => s.replies) (v := [])
    twoCalls rfl rfl
  exact ⟨s, hv, never_fatal hs⟩

end Demux

end CollabIde
