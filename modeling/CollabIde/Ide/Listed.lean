import CollabIde.Ide.Applied
import CollabIde.Ide.Attached

/-!
# The proposals that the pages list

A page keeps its list by the announcements that it gets, and takes off what its user decides before
the server hears of it. What a page lists once its messages are delivered (`Conn.lists`) changes
with an announcement only (`step_lists`). It agrees with the server in every run in which what an
announcement says, what a new page starts with and what a page takes off for a decision that is
dropped is what the server has, or is yet to be announced (`Ide.Informed`, `listed_iff_pending`).
-/

namespace CollabIde

variable {E : Type}

/-- The page lists a proposal with the ID. -/
def Tab.lists (tab : Tab E) (id : String) : Bool := tab.proposals.any (·.id = id)

theorem Tab.lists_iff {tab : Tab E} {id : String} :
    tab.lists id = true ↔ ∃ p ∈ tab.proposals, p.id = id := by
  rw [Tab.lists, List.any_eq_true]
  exact exists_congr fun p => and_congr_right fun _ => decide_eq_true_iff

/-- Whether a page lists a proposal after some messages. -/
def listsAfter (id : String) (b : Bool) (ms : List (WSMessage E)) : Bool :=
  ms.foldl (fun b m => (m.lists id).getD b) b

section ListsAfter

variable {id : String} {b : Bool} {ms : List (WSMessage E)}

theorem listsAfter_append (ms' : List (WSMessage E)) :
    listsAfter id b (ms ++ ms') = listsAfter id (listsAfter id b ms) ms' := List.foldl_append ..

/-- Messages about other things. -/
theorem listsAfter_eq (h : ∀ m ∈ ms, m.lists id = none) : listsAfter id b ms = b := by
  induction ms generalizing b with
  | nil => rfl
  | cons m ms ih =>
    obtain ⟨hm, hms⟩ := List.forall_mem_cons.mp h
    change listsAfter id ((m.lists id).getD b) ms = b
    rw [hm, Option.getD_none, ih hms]

/-- What is not listed at first is not listed later than what is. -/
theorem listsAfter_mono (h : listsAfter id false ms = true) : listsAfter id b ms = true := by
  cases b with
  | true =>
    induction ms with
    | nil => rfl
    | cons m ms ih =>
      change listsAfter id ((m.lists id).getD true) ms = true
      change listsAfter id ((m.lists id).getD false) ms = true at h
      cases hm : m.lists id with
      | none =>
        rw [hm] at h
        exact ih h
      | some b =>
        rw [hm] at h
        exact h
  | false => exact h

end ListsAfter

/-- Whether the page lists the proposal once its messages are delivered. -/
def Conn.lists (c : Conn E) (id : String) : Bool := listsAfter id (c.tab.lists id) c.pipeline

theorem Conn.lists_of_pipeline {c : Conn E} (h : c.pipeline = []) (id : String) :
    c.lists id = c.tab.lists id := by
  rw [lists, h]
  rfl

/-- What a task announces of a proposal. -/
def Task.announces (id : String) : Task E → Option Bool
  | .broadcastAll m => m.lists id
  | _ => none

theorem Task.Plain.announces {t : Task E} (ht : t.Plain) (id : String) : t.announces id = none := by
  cases t with
  | broadcastAll m => exact ht id
  | _ => rfl

namespace Tab

variable (tab : Tab E)

theorem removeProposal_lists (i id : String) :
    (tab.removeProposal i).lists id = (if i = id then some false else none).getD (tab.lists id) := by
  split
  · rename_i hi
    rw [Option.getD_some, ← Bool.not_eq_true, lists_iff]
    rintro ⟨p, hp, hid⟩
    rw [removeProposal, List.mem_filter, hi] at hp
    exact absurd hid (of_decide_eq_true hp.2)
  · rename_i hi
    rw [Option.getD_none, Bool.eq_iff_iff, lists_iff, lists_iff]
    refine exists_congr fun p => and_congr_left fun hid => ?_
    rw [removeProposal, List.mem_filter]
    exact and_iff_left (decide_eq_true fun hp => hi (hp.symm.trans hid))

variable [DecidableEq E] [Edit E]

/-- A page changes its list as a message says. -/
theorem onMessage_lists (m : WSMessage E) (id : String) :
    (tab.onMessage m).1.lists id = (m.lists id).getD (tab.lists id) := by
  cases m with
  | binary u => rfl
  | text t =>
    cases t with
    | none => rfl
    | some t =>
      cases t with
      | proposal action p =>
        simp only [onMessage, WSMessage.lists, Text.lists]
        split
        · rw [lists, lists, List.any_append, List.any_cons, List.any_nil, Bool.or_false]
          split
          · rename_i hid
            rw [decide_eq_true hid, Bool.or_true]
            rfl
          · rename_i hid
            rw [decide_eq_false hid, Bool.or_false]
            rfl
        · exact tab.removeProposal_lists p.id id
        · exact tab.removeProposal_lists p.id id
        · rename_i hadd haccept hreject
          rw [listed_eq_none hadd haccept hreject, ite_self]
          rfl
      | _ => rfl

omit [Edit E] in
theorem starter_lists (emptyText : Finset E → Bool) (es : Finset E) (id : String) :
    (tab.starter emptyText es).1.lists id = tab.lists id := by
  unfold starter
  split <;> rfl

end Tab

theorem Conn.Orderly.broadcast_lists {c : Conn E} (ho : c.Orderly) {m : WSMessage E}
    (hm : .broadcast m ∈ c.todo) (id : String) : m.lists id = none := by
  cases ho with
  | plain hplain => exact hplain _ hm id
  | submit htodo _ _ _ =>
    rw [htodo] at hm
    simp at hm
  | announce htodo _ =>
    rw [htodo] at hm
    simp at hm

namespace Ide

section Announce

variable (s : Ide E) (code id : String)

/-- What the handler of a connection of the session announces next. -/
def announces (k : ℕ) : Option Bool :=
  if (s.conn k).client.code = code then (s.conn k).todo.head?.bind (Task.announces id) else none

/-- What a step announces. -/
def announced : Action E → Option Bool
  | .run k => s.announces code id k
  | _ => none

/-- What the pages have for a pending proposal, or not for one (`b`), is so, or another handler
than that of connection `k` is about to announce what is. -/
def Told (k : ℕ) (b : Bool) : Prop := s.sessions.pending code id = b ∨
  ∃ j < s.next, j ≠ k ∧ s.announces code id j = some (s.sessions.pending code id)

instance (k : ℕ) (b : Bool) : Decidable (s.Told code id k b) :=
  inferInstanceAs (Decidable (_ ∨ ∃ j < _, _))

/-- What the pages are left with is so, or will be announced: what an announcement says, that a new
page lists nothing, and that a page has taken off what its user has decided, if the handler drops
the decision. -/
def Informed : Action E → Prop
  | .run k => (s.registers (.run k) = some k → s.Page code k → s.Told code id k false) ∧
    ∀ b ∈ s.announces code id k, s.Told code id k b
  | .serve k => s.Page code k → (∃ d ∈ s.dropped (.serve k), d.2 = id) → s.Told code id k false
  | _ => True

instance (x : Action E) : Decidable (s.Informed code id x) :=
  match x with
  | .run k => inferInstanceAs (Decidable ((_ = some k → _ → _) ∧ ∀ b ∈ s.announces code id k, _))
  | .serve k => inferInstanceAs (Decidable (_ → (∃ d ∈ s.dropped (.serve k), _) → _))
  | .create .. | .join .. | .connect .. | .refuse _ | .replicate _ | .fail _ | .pump _ | .receive _
  | .edit .. | .starter .. | .send .. | .hangUp _ => .isTrue trivial

/-- The queues to which a step sends have room. -/
def NoOverflow (x : Action E) : Prop :=
  ∀ j < s.next, (s.posted x j).isSome = true → (s.conn j).client.send.length < sendCap

instance (x : Action E) : Decidable (s.NoOverflow x) := inferInstanceAs (Decidable (∀ j < _, _))

/-- The page of connection `j` lists the proposal if it is pending, or it is about to be told, or
its user has decided. -/
def UpToDate (j : ℕ) : Prop :=
  (s.conn j).lists id = s.sessions.pending code id ∨
    (∃ k < s.next, s.announces code id k = some (s.sessions.pending code id)) ∨
    s.sessions.pending code id = true ∧
      ∃ action, (action = "accept" ∨ action = "reject") ∧ (s.conn j).Decides action id

/-- The pages of the session that the hub has agree with the server. -/
structure Listed : Prop where
  attached : s.Attached code
  orderly : s.Orderly
  opening : ∀ j, .register ∈ (s.conn j).todo → (s.conn j).tab.lists id = false
  upToDate : ∀ j, s.Page code j → s.Registered j → s.UpToDate code id j

end Announce

variable {cfg : Config E} {s s' : Ide E} {x : Action E} {code id : String} {j k : ℕ}

/-- What the server passes on changes no list. -/
theorem framePost_lists {f : Frame E} (hf : f.Tidy) :
    (s.framePost k f j).bind (·.lists id) = none := by
  have hif {p : Prop} [Decidable p] {t : Option (Text E)} (ht : (WSMessage.text t).lists id = none) :
      (if p then some (WSMessage.text t) else none).bind (·.lists id) = none := by
    split
    · exact ht
    · rfl
  cases f with
  | binary u => rfl
  | text m t =>
    cases m with
    | none => rfl
    | some m =>
      have ht (hm : m.type ≠ "proposal") : (WSMessage.text t).lists id = none := by
        cases t with
        | none => rfl
        | some t => exact hf.resolve_left hm id
      simp only [framePost]
      split
      · rename_i hm
        exact hif (ht (by rw [hm]; decide))
      · rename_i hm
        exact hif (ht (by rw [hm]; decide))
      · rename_i hm
        exact hif (ht (by rw [hm]; decide))
      · rename_i hm
        exact hif (ht (by rw [hm]; decide))
      · rfl

/-- A page of the session gets what a step announces. -/
theorem posted_lists (ho : s.Orderly) (hj : s.InSession code j) :
    (s.posted x j).bind (·.lists id) = s.announced code id x := by
  cases x with
  | run k =>
    simp only [posted, announced, announces]
    cases ht : (s.conn k).todo.head? with
    | none => exact (ite_self _).symm
    | some t =>
      obtain ⟨rest, htodo⟩ := List.head?_eq_some_iff.mp ht
      rw [Option.bind_some, Option.bind_some]
      cases t with
      | broadcast m =>
        have hm := (ho.todo k).broadcast_lists (htodo ▸ List.mem_cons_self ..) id
        simp only [taskPost, Task.announces, ite_self]
        split
        · exact hm
        · rfl
      | broadcastAll m =>
        simp only [taskPost, Task.announces]
        by_cases hc : (s.conn k).client.code = code
        · rw [hc, if_pos hj, if_pos rfl]
          rfl
        · rw [if_neg fun hk => hc (hk.2.symm.trans hj.2), if_neg hc]
          rfl
      | _ => exact (ite_self _).symm
  | serve k =>
    simp only [posted, announced]
    cases hf : (s.conn k).inbox.head? with
    | none => rfl
    | some f =>
      obtain ⟨rest, hin⟩ := List.head?_eq_some_iff.mp hf
      have htidy := ho.inbox k f (hin ▸ List.mem_cons_self ..)
      rw [Option.bind_some]
      exact framePost_lists htidy
  | _ => rfl

/-- A handler writes a document or a redirect. -/
theorem writes_lists {m : WSMessage E} (h : m ∈ s.writes cfg x j) (id : String) :
    m.lists id = none := by
  unfold writes at h
  split at h
  · split at h
    · rename_i k hj
      cases ht : (s.conn k).todo.head? with
      | none =>
        rw [ht] at h
        cases h
      | some t =>
        rw [ht, Option.elim_some] at h
        cases t with
        | sendDoc =>
          rw [written, Option.mem_toList] at h
          obtain ⟨doc, -, rfl⟩ := Option.map_eq_some_iff.mp h
          rfl
        | redirect =>
          rw [List.mem_singleton.mp h]
          rfl
        | _ => cases h
    · cases h
  · cases h

variable [DecidableEq E] [Edit E]

omit [Edit E] in
/-- A page changes its list of itself with a click only. -/
theorem acts_lists : (s.acts cfg x j).lists id = (s.conn j).tab.lists id := by
  unfold acts
  split
  · split <;> rfl
  · split
    · exact Tab.starter_lists _ _ _ _
    · rfl
  · split <;> rfl
  · rfl

variable (id) in
/-- **What a page lists** once its messages are delivered changes with a message that is sent to
it. -/
theorem step_lists (h : s.step cfg x = some s') (hj : j < s.next)
    (hroom : s.posted x j ≠ none → (s.conn j).client.send.length < sendCap) :
    (s'.conn j).lists id = ((s.posted x j).bind (·.lists id)).getD ((s.conn j).lists id) := by
  cases step_flow h hj with
  | page htab hpipe =>
    have hposted : (if (s.conn j).client.send.length < sendCap then (s.posted x j).toList else []) =
        (s.posted x j).toList := by
      cases hm : s.posted x j with
      | none => exact ite_self _
      | some m => exact if_pos (hroom (by rw [hm]; exact Option.some_ne_none m))
    have hold : listsAfter id (listsAfter id ((s.conn j).tab.lists id) (s.conn j).socket)
        (s.conn j).client.send = (s.conn j).lists id := (listsAfter_append _).symm
    rw [Conn.lists, hpipe, hposted, htab, acts_lists, listsAfter_append, listsAfter_append,
      listsAfter_append, listsAfter_eq fun m hm => writes_lists hm id, hold]
    cases s.posted x j <;> rfl
  | receive hx _ hpipe htab =>
    have hnone : s.posted x j = none := by
      rw [hx]
      rfl
    rw [hnone, Option.bind_none, Option.getD_none, Conn.lists, Conn.lists, htab,
      Tab.onMessage_lists, hpipe]
    rfl

omit [DecidableEq E] [Edit E] in
/-- Tasks that begin with no announcement. -/
theorem head_announces {ts : List (Task E)} (h : ∀ t ∈ ts.head?, t.announces id = none) :
    ts.head?.bind (Task.announces id) = none := by
  cases ht : ts.head? with
  | none => rfl
  | some t => exact h t ht

/-- After a submit, the handler announces what has been applied. -/
theorem announces_run (h : s.step cfg (.run j) = some s') (ho : s.Orderly) (hj : j < s.next) :
    s'.announces code id j = s.sets (.run j) code id := by
  have hcode := (step_stays h hj).code
  cases ht : (s.conn j).todo with
  | nil => 
    cases stepped h with
    | run ht' =>
      rw [ht] at ht'
      cases ht'
  | cons t rest =>
    have htodo := run_todo h ht
    unfold announces
    rw [hcode, htodo]
    cases ho.todo j with
    | plain hplain =>
      have hsets : s.sets (.run j) code id = none := by
        cases hb : s.sets (.run j) code id with
        | none => rfl
        | some b =>
          obtain ⟨c, hc, -⟩ := sets_eq_some hb
          obtain ⟨last, rest', htodo'⟩ := submit_of_command hc
          have hsubmit := hplain (.submit (.proposal c) last) (htodo' ▸ List.mem_cons_self ..)
          exact hsubmit.elim
      rw [hsets, head_announces, ite_self]
      intro t' ht'
      refine Task.Plain.announces ?_ id
      obtain ht' | ht' := List.mem_append.mp (List.mem_of_mem_head? ht')
      · exact Orderly.follow_plain ht'
      · exact hplain t' (ht ▸ List.mem_cons_of_mem t ht')
    | @submit cmd p htodo' hcode' hid hlisted =>
      cases ht.symm.trans htodo'
      have hsets : s.sets (.run j) code id =
          if (s.conn j).client.code = code ∧ p.id = id then listed cmd.action else none := by
        simp only [sets, Ide.command, ht, hcode', hid]
        exact if_congr (and_congr eq_comm eq_comm) rfl rfl
      rw [hsets]
      by_cases hc : (s.conn j).client.code = code
      · rw [if_pos hc]
        exact if_congr (and_iff_right hc).symm rfl rfl
      · rw [if_neg hc, if_neg fun h => hc h.1]
    | announce htodo' hlisted =>
      cases ht.symm.trans htodo'
      simp only [sets, Ide.command, ht]
      exact ite_self _

/-- A handler announces what it has been about to announce. -/
theorem announces_ne (h : s.step cfg x = some s') (hrsm : cfg.rsm = false) (hj : j < s.next)
    (hx : x ≠ .run j) : s'.announces code id j = s.announces code id j := by
  unfold announces
  rw [(step_stays h hj).code]
  cases step_handler h j with
  | page _ htodo _ => rw [htodo]
  | connect _ hnew _ => exact absurd hnew hj.ne
  | run hrun _ _ _ _ => exact absurd hrun hx
  | refuse _ _ hr _ _ _ =>
    rw [hrsm] at hr
    cases hr
  | @serve f _ _ hidle _ _ _ htodo =>
    rw [htodo, hidle.2, head_announces]
    · rfl
    intro t ht
    obtain hplain | ⟨m, _, -, -, htasks⟩ := (s.conn j).client.frameTasks_cases f
    · exact (hplain t (List.mem_of_mem_head? ht)).announces id
    rw [htasks] at ht
    obtain hnil | ⟨cmd, p, hcons, -⟩ := (s.conn j).client.proposalTasks_cases m
    · rw [hnil] at ht
      cases ht
    · rw [hcons] at ht
      cases ht
      rfl
  | fail _ hidle _ _ _ htodo =>
    rw [htodo, hidle.2]
    rfl

theorem Told.step {b : Bool} (ht : s.Told code id k b) (h : s.step cfg x = some s')
    (hrsm : cfg.rsm = false) (hx : ∀ j, x = .run j → j = k)
    (hp : s'.sessions.pending code id = s.sessions.pending code id) :
    b = s'.sessions.pending code id ∨
      ∃ j < s'.next, s'.announces code id j = some (s'.sessions.pending code id) := by
  obtain hb | ⟨j, hj, hne, hann⟩ := ht
  · exact .inl (hb.symm.trans hp.symm)
  · refine .inr ⟨j, hj.trans_le (step_next h), ?_⟩
    rw [announces_ne h hrsm hj fun hrun => hne (hx j hrun), hann, hp]

namespace Listed

/-- The pages that the hub has already had. -/
theorem upToDate_step (h : s.Listed code id) (hst : s.step cfg x = some s') (hrsm : cfg.rsm = false)
    (hroom : s.NoOverflow x) (hinf : s.Informed code id x) (hpage : s.Page code j)
    (hreg : s.Registered j) : s'.UpToDate code id j := by
  have hj := (h.attached.wf.registered hreg).1
  have hpending := pending_step hst code id
  have hlists := step_lists id hst hj fun hposted =>
    hroom j hj (Option.isSome_iff_ne_none.mpr hposted)
  rw [posted_lists h.orderly ⟨hreg, hpage.1⟩] at hlists
  cases hsets : s.sets x code id with
  | some b =>
    -- a handler has submitted, and announces it next
    obtain ⟨c, hcmd, -⟩ := sets_eq_some hsets
    obtain ⟨k, rfl⟩ : ∃ k, x = .run k := by
      cases x with
      | run k => exact ⟨k, rfl⟩
      | replicate cmd =>
        simp only [step, hrsm] at hst
        cases hst
      | create _ _ => cases hcmd
      | join _ _ => cases hcmd
      | _ => cases hcmd
    obtain ⟨last, rest, htodo⟩ := submit_of_command hcmd
    have hk := h.attached.wf.lt_of_todo htodo
    refine .inr (.inl ⟨k, hk.trans_le (step_next hst), ?_⟩)
    rw [announces_run hst h.orderly hk, hpending, hsets]
    rfl
  | none =>
    rw [hsets, Option.getD_none] at hpending
    cases hann : s.announced code id x with
    | some b =>
      rw [hann, Option.getD_some] at hlists
      obtain ⟨k, rfl⟩ : ∃ k, x = .run k := by
        cases x with
        | run k => exact ⟨k, rfl⟩
        | _ => cases hann
      obtain hb | hann' := (hinf.2 b hann).step hst hrsm (fun i hi => (Action.run.inj hi).symm) hpending
      · exact .inl (hlists.trans hb)
      · exact .inr (.inl hann')
    | none =>
      rw [hann, Option.getD_none] at hlists
      obtain hsame | ⟨i, hi, hann'⟩ | ⟨hp, action, haction, hdec⟩ := h.upToDate j hpage hreg
      · exact .inl (hlists.trans (hsame.trans hpending.symm))
      · refine .inr (.inl ⟨i, hi.trans_le (step_next hst), ?_⟩)
        rw [hpending, announces_ne hst hrsm hi fun hrun => ?_, hann']
        rw [hrun] at hann
        exact absurd (hann.symm.trans hann') (Option.some_ne_none _).symm
      · obtain hdec | ⟨c, rfl, hcmd, hact, hid⟩ | ⟨hx, hdrop⟩ :=
          step_decides hst h.attached.wf h.orderly hdec
        · exact .inr (.inr ⟨hpending ▸ hp, action, haction, hdec⟩)
        · -- the decision would have been applied
          simp only [sets, hcmd] at hsets
          rw [if_pos ⟨((h.orderly.command hcmd).trans hpage.1).symm, hid.symm⟩, hact,
            listed_eq_false.mpr haction] at hsets
          cases hsets
        · obtain rfl | rfl | rfl := hx
          · obtain hb | hann' := (hinf hpage ⟨_, hdrop, rfl⟩).step hst hrsm
              (fun _ hrun => by cases hrun) hpending
            · rw [hpending, hp] at hb
              cases hb
            · exact .inr (.inl hann')
          · cases stepped hst with
            | refuse hr _ =>
              rw [hrsm] at hr
              cases hr
          · cases stepped hst with
            | fail _ hdown =>
              rw [hpage.2] at hdown
              cases hdown

/-- A page that the hub gets. -/
theorem registers_upToDate (h : s.Listed code id) (hst : s.step cfg x = some s')
    (hrsm : cfg.rsm = false) (hinf : s.Informed code id x) (hpage : s.Page code j)
    (hx : s.registers x = some j) : s'.UpToDate code id j := by
  obtain ⟨rfl, rest, htodo⟩ := registers_eq hx
  have hmem : .register ∈ (s.conn j).todo := htodo ▸ List.mem_cons_self ..
  obtain ⟨hnot, hpipe⟩ := h.attached.opening j hmem
  have hposted : s.posted (.run j) j = none := by
    by_contra hposted
    exact hnot (posted_registered h.attached.wf hposted)
  have hlists := step_lists id hst (h.attached.wf.lt_of_todo htodo) fun hp =>
    absurd hposted hp
  rw [hposted, Option.bind_none, Option.getD_none, Conn.lists_of_pipeline hpipe,
    h.opening j hmem] at hlists
  have hsets : s.sets (.run j) code id = none := by
    simp only [sets, Ide.command, htodo]
  have hpending := pending_step hst code id
  rw [hsets, Option.getD_none] at hpending
  obtain hb | hann := (hinf.1 hx hpage).step hst hrsm (fun i hi => (Action.run.inj hi).symm) hpending
  · exact .inl (hlists.trans hb)
  · exact .inr (.inl hann)

theorem step (h : s.Listed code id) (hst : s.step cfg x = some s') (hrsm : cfg.rsm = false)
    (hkeep : s.KeepsPages code x) (hroom : s.NoOverflow x) (hinf : s.Informed code id x)
    (htidy : ∀ j, ∀ f ∈ s.sends cfg x j, f.Tidy) : s'.Listed code id := by
  have hattached := h.attached.step hst hrsm hkeep
  refine ⟨hattached, h.orderly.step hst htidy, fun j hr => ?_, fun j hpage hreg => ?_⟩
  · obtain hmem | ⟨_, _, _, -, -, hfresh⟩ := register_of_step hst hr
    · cases step_delivery hst j with
      | page htab _ _ => rw [htab, acts_lists, h.opening j hmem]
      | connect _ _ hfresh => rw [hfresh]; rfl
      | receive _ _ hm _ _ =>
        have hpipe := (h.attached.opening j hmem).2
        rw [Conn.pipeline, hm] at hpipe
        cases hpipe
    · rw [hfresh]
      rfl
  · obtain hc | ⟨_, _, _, -, -, hfresh⟩ := step_connected hst hpage.2
    · have hj := h.attached.wf.lt_of_connected hc
      have hpage' : s.Page code j := ⟨(step_stays hst hj).code ▸ hpage.1, hc⟩
      obtain hx | hreg' := registered_of_step hst hj hreg
      · exact h.registers_upToDate hst hrsm hinf hpage' hx
      · exact h.upToDate_step hst hrsm hroom hinf hpage' hreg'
    · refine absurd hreg (hattached.opening j ?_).1
      rw [hfresh]
      simp [Conn.fresh, openingTasks]

omit [DecidableEq E] [Edit E] in
theorem initial : (initial : Ide E).Listed code id where
  attached := .initial
  orderly := .initial
  opening _ := nofun
  upToDate _ hpage := nomatch hpage.2

omit [DecidableEq E] [Edit E] in
/-- A page takes a proposal off its list, and sends the decision. -/
theorem click (h : s.Listed code id) (hk : k < s.next) {i : String} {r : Tab E × List (Frame E)}
    (hconnected : r.1.connected = (s.conn k).tab.connected)
    (hlists : r.1.lists id = ((s.conn k).tab.removeProposal i).lists id)
    (htidy : ∀ f ∈ r.2, f.Tidy)
    (hsent : r.1.connected = true → ∃ action, (action = "accept" ∨ action = "reject") ∧
      ∃ f ∈ r.2, f.decision = some (action, i)) : (s.setTab k r).Listed code id := by
  have hattached := h.attached.setTab (r := r) hk fun hc => hconnected ▸ hc
  have hsame (j : ℕ) := setConn_same (s := s) (k := k) (c := { s.conn k with
    tab := r.1, inbox := (s.conn k).inbox ++ r.2 }) (fun c => (c.client, c.todo, c.pipeline)) rfl j
  simp only [Prod.mk.injEq] at hsame
  have hother {j : ℕ} (hj : j ≠ k) : ((s.setTab k r).conn j).tab = (s.conn j).tab := by
    rw [setTab_conn, if_neg hj]
  have hself : ((s.setTab k r).conn k).tab = r.1 := by rw [setTab_conn, if_pos rfl]
  have hannounces (j : ℕ) : (s.setTab k r).announces code id j = s.announces code id j := by
    unfold announces
    rw [Ide.setTab, (hsame j).1, (hsame j).2.1]
  refine ⟨hattached, h.orderly.setTab htidy, fun j hr => ?_, fun j hpage hreg => ?_⟩
  · have hnone := h.opening j ((hsame j).2.1 ▸ hr)
    by_cases hj : j = k
    · subst hj
      rw [hself, hlists, Tab.removeProposal_lists, hnone]
      split <;> rfl
    · rw [hother hj, hnone]
  · have hpage' : s.Page code j := by
      refine ⟨(congrArg Client.code (hsame j).1).symm.trans hpage.1, ?_⟩
      by_cases hj : j = k
      · subst hj
        rw [← hconnected, ← hself]
        exact hpage.2
      · rw [← hother hj]
        exact hpage.2
    have hreg' : s.Registered j := by
      rw [Registered, ← (hsame j).1]
      exact hreg
    obtain heq | ⟨i, hi, hann⟩ | ⟨hp, action, haction, hdec⟩ := h.upToDate j hpage' hreg'
    · have hlists' : ((s.setTab k r).conn j).lists id = (s.conn j).lists id ∨ j = k ∧ i = id ∧
          (((s.setTab k r).conn j).lists id = true → (s.conn j).lists id = true) := by
        unfold Conn.lists
        rw [Ide.setTab, (hsame j).2.2, ← Ide.setTab]
        by_cases hj : j = k
        · subst hj
          rw [hself, hlists, Tab.removeProposal_lists]
          split
          · exact .inr ⟨rfl, ‹_›, listsAfter_mono⟩
          · exact .inl rfl
        · rw [hother hj]
          exact .inl rfl
      obtain hlists' | ⟨rfl, rfl, hle⟩ := hlists'
      · exact .inl (hlists'.trans heq)
      cases hp : s.sessions.pending code i with
      | true =>
        obtain ⟨action, haction, f, hf, hdec⟩ := hsent (hself ▸ hpage.2)
        refine .inr (.inr ⟨hp, action, haction, setTab_decides.mpr (.inr ⟨rfl, ?_, f, hf, hdec⟩)⟩)
        exact h.attached.serving j hpage'.2
      | false =>
        left
        rw [hp] at heq
        refine Eq.trans ?_ hp.symm
        rw [← Bool.not_eq_true]
        intro hb
        rw [hle hb] at heq
        cases heq
    · exact .inr (.inl ⟨i, hi, (hannounces i).trans hann⟩)
    · exact .inr (.inr ⟨hp, action, haction, setTab_decides.mpr (.inl hdec)⟩)

end Listed

section

variable (s)

/-- No handler of the session is at work, and all is delivered from the page of connection `k` and
to it. -/
structure Delivered (code : String) (k : ℕ) : Prop where
  todo : ∀ j < s.next, (s.conn j).client.code = code → (s.conn j).todo = []
  inbox : (s.conn k).inbox = []
  pipeline : (s.conn k).pipeline = []

end

omit [DecidableEq E] [Edit E] in
/-- A page to which all is delivered lists what is pending. -/
theorem Listed.delivered (h : s.Listed code id) (hpage : s.Page code k)
    (hd : s.Delivered code k) :
    (s.conn k).tab.lists id = s.sessions.pending code id := by
  have htodo := hd.todo k (h.attached.wf.lt_of_connected hpage.2) hpage.1
  have hreg : s.Registered k := by
    refine (h.attached.registered k hpage).resolve_right ?_
    rw [htodo]
    exact List.not_mem_nil
  obtain heq | ⟨i, hi, hann⟩ | ⟨-, action, -, ⟨-, f, hf, -⟩ | ⟨t, ht, -⟩⟩ := h.upToDate k hpage hreg
  · exact (Conn.lists_of_pipeline hd.pipeline id).symm.trans heq
  · unfold announces at hann
    split at hann
    · rw [hd.todo i hi ‹_›] at hann
      cases hann
    · cases hann
  · rw [hd.inbox] at hf
    cases hf
  · rw [htodo] at ht
    cases ht

end Ide

/-- A frame about a proposal. -/
def proposalFrame (m : IncomingMsg) : Frame E :=
  .text (some { m with type := "proposal" }) (some .other)

namespace Review

/-- What pages do, and frames about proposals that any client sends. -/
inductive Move (E : Type) where
  | page (x : Action E)
  | send (k : ℕ) (m : IncomingMsg)

/-- What the editor under the clicks does. -/
def Move.ide : Move E → Option (Ide.Action E)
  | .page (.ide x) => some x
  | .page (.add k m) => some (.send k (addFrame m))
  | .page (.accept _ _ _) | .page (.reject _ _) => none
  | .send k m => some (.send k (proposalFrame m))

variable [DecidableEq E] [Edit E] (cfg : Config E) (view : Finset E → YDoc) (s : Review E)

def move : Move E → Option (Review E)
  | .page x => s.step cfg view x
  | .send k m => (s.ide.send k (proposalFrame m)).map fun ide => { s with ide := ide }

/-- The editor with its proposals, and with clients that need not be pages. -/
def openMachine : Machine (Review E) (Move E) where
  init s := s = initial
  step := move cfg view

omit [DecidableEq E] [Edit E] in
/-- No queue overflows. -/
def NoOverflow (x : Move E) : Prop := ∀ y ∈ x.ide, s.ide.NoOverflow y

/-- What the pages are left with is so or will be announced, and the hub keeps them. -/
def Informed (code id : String) (x : Move E) : Prop :=
  ∀ y ∈ x.ide, s.ide.KeepsPages code y ∧ s.ide.Informed code id y

omit [DecidableEq E] [Edit E] in
instance (x : Move E) : Decidable (s.NoOverflow x) :=
  inferInstanceAs (Decidable (∀ y ∈ x.ide, s.ide.NoOverflow y))

omit [DecidableEq E] [Edit E] in
instance (code id : String) (x : Move E) : Decidable (s.Informed code id x) :=
  inferInstanceAs (Decidable (∀ y ∈ x.ide, s.ide.KeepsPages code y ∧ s.ide.Informed code id y))

variable {cfg view s}

omit [DecidableEq E] [Edit E] in
theorem text_tidy {m : IncomingMsg} {t : Option (Text E)} (hm : m.type = "proposal") :
    (Frame.text (some m) t).Tidy := by
  cases t with
  | none => trivial
  | some t => exact .inl hm

theorem sends_tidy {k : ℕ} {f : Frame E} (hf : f.Tidy) (j : ℕ) :
    ∀ g ∈ s.ide.sends cfg (.send k f) j, g.Tidy := by
  intro g hg
  simp only [Ide.sends] at hg
  split at hg
  · rw [List.mem_singleton.mp hg]
    exact hf
  · cases hg

/-- The lists agree with what is pending after every move. -/
theorem listed_move {code id : String} {x : Move E} {s' : Review E} (h : s.ide.Listed code id)
    (hst : s.move cfg view x = some s') (hrsm : cfg.rsm = false) (hroom : s.NoOverflow x)
    (hinf : s.Informed code id x) : s'.ide.Listed code id := by
  have hide {y : Ide.Action E} {ide : Ide E} (hy : y ∈ x.ide) (hst : s.ide.step cfg y = some ide)
      (htidy : ∀ j, ∀ f ∈ s.ide.sends cfg y j, f.Tidy) : ide.Listed code id :=
    h.step hst hrsm (hinf y hy).1 (hroom y hy) (hinf y hy).2 htidy
  have hreject {k : ℕ} {p : Proposal} (hshow : s.Shows k p) :
      (s.ide.setTab k ((s.ide.conn k).tab.reject p.id)).Listed code id :=
    h.click (hshow.lt h.attached.wf) (i := p.id) rfl rfl
      (fun f hf => (Tab.reject_frames _ hf).2)
      fun hc => ⟨"reject", .inr rfl, _, Tab.sendJSON_self _ hc, decisionFrame_decision (.inr rfl)⟩
  cases x with
  | send k m =>
    obtain ⟨ide, hsend, rfl⟩ := Option.map_eq_some_iff.mp hst
    exact hide rfl hsend (sends_tidy (text_tidy rfl))
  | page x =>
    replace hst : s.step cfg view x = some s' := hst
    by_cases hadd : ∃ k m, x = .add k m
    · obtain ⟨k, m, rfl⟩ := hadd
      obtain ⟨ide, hsend, rfl⟩ := Option.map_eq_some_iff.mp hst
      exact hide rfl hsend (sends_tidy (text_tidy rfl))
    cases stepped hst with
    | ide hx hide' => exact hide rfl hide' fun _ _ hf => (Ide.sends_plain hx hf).2
    | add _ => exact absurd ⟨_, _, rfl⟩ hadd
    | accept hshow _ =>
      refine h.click (hshow.lt h.attached.wf) rfl rfl (fun f hf => (Tab.accept_frames _ hf).2)
        fun hc => ⟨"accept", .inl rfl, _, List.mem_append_right _ (Tab.sendJSON_self _ hc),
          decisionFrame_decision (.inl rfl)⟩
    | discard hshow _ => exact hreject hshow
    | reject hshow => exact hreject hshow

/-- **Pages list what is pending**, in every run in which no queue overflows and the pages are
informed. -/
theorem proposals_listed {code id : String} (hrsm : cfg.rsm = false)
    (hs : (openMachine cfg view).Reach (fun s x => s.NoOverflow x ∧ s.Informed code id x) s) {k : ℕ}
    (hpage : s.ide.Page code k) (hdelivered : s.ide.Delivered code k) :
    (∃ p ∈ (s.ide.conn k).tab.proposals, p.id = id) ↔ s.ide.sessions.pending code id = true := by
  have hlisted : s.ide.Listed code id := by
    refine hs.invariant (I := fun s : Review E => s.ide.Listed code id) (fun s h0 => ?_)
      fun _ _ _ _ h hok hst => listed_move h hst hrsm hok.1 hok.2
    cases h0
    exact .initial
  rw [← Tab.lists_iff, hlisted.delivered hpage hdelivered]

/-- Ann's and Bob's pages list her proposal. -/
theorem proposals_listed_added : ∃ s : Review ℕ,
    ((s.ide.conn 1).tab.proposals.map (·.id) = ["p"] ∧ s.ide.sessions.pending "abc" "p" = true) ∧
      ((∃ p ∈ (s.ide.conn 1).tab.proposals, p.id = "p") ↔
        s.ide.sessions.pending "abc" "p" = true) := by
  obtain ⟨s, hs, hv⟩ := (openMachine Ide.single letterDoc).reach_of_run
    (fun s x => s.NoOverflow x ∧ s.Informed "abc" "p" x)
    (f := fun s => decide (((s.ide.conn 1).tab.proposals.map (·.id) = ["p"] ∧
      s.ide.sessions.pending "abc" "p" = true) ∧ s.ide.Page "abc" 1 ∧ s.ide.Quiet "abc" ∧
      1 < s.ide.next ∧ (s.ide.conn 1).serving = true)) (v := true)
    (proposed.map .page) rfl (by decide +kernel)
  obtain ⟨hp, hpage, hquiet, hlt, hserving⟩ := of_decide_eq_true hv
  obtain ⟨-, hinbox, hpipeline⟩ := hquiet 1 hlt hpage.1
  exact ⟨s, hp, proposals_listed rfl hs hpage ⟨fun j hj hcode => (hquiet j hj hcode).1,
    hinbox hserving, hpipeline hpage.2⟩⟩

/-- Eve's page connects when the proposal is pending, and never gets it. -/
theorem proposals_not_listed : ¬ ∀ s : Review ℕ,
    (openMachine Ide.single letterDoc).Reach (fun s x => s.NoOverflow x) s → s.ide.Quiet "abc" →
      ∀ k, s.ide.Page "abc" k → ∀ id, (∃ p ∈ (s.ide.conn k).tab.proposals, p.id = id) ↔
        s.ide.sessions.pending "abc" id = true := by
  intro h
  obtain ⟨s, hs, hv⟩ := (openMachine Ide.single letterDoc).reach_of_run
    (fun s x => s.NoOverflow x)
    (f := fun s => decide (s.ide.Quiet "abc" ∧ s.ide.Page "abc" 2 ∧
      (s.ide.conn 2).tab.proposals = [] ∧ s.ide.sessions.pending "abc" "p" = true)) (v := true)
    ((proposed ++ (Ide.opens 2 "eve" "viewer" ++ [Ide.Action.receive 2, .serve 2] ++ Ide.gets 2 ++
      Ide.gets 0 ++ Ide.gets 1 ++ Ide.gets 0 ++ Ide.gets 1).map .ide).map .page)
    rfl (by decide +kernel)
  obtain ⟨hquiet, hpage, hnil, hpending⟩ := of_decide_eq_true hv
  obtain ⟨p, hp, -⟩ := (h s hs hquiet 2 hpage "p").mpr hpending
  rw [hnil] at hp
  cases hp

end Review

end CollabIde
