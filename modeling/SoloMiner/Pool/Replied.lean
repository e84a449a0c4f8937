import SoloMiner.Pool.Stage

/-!
# The replies on a channel

A miner tells the replies of the pool apart by their ids, and the replies share the channel
with jobs and difficulties that come from other threads. Still there is one reply for each
request, in the order of the requests: whatever the handler of a request runs into, what it
emits comes to one reply with the id of the request
(`SoloMiner.Session.emits_onRequest`), and nobody else replies. So along every run of the
threads of the pool the replies on a channel are those to the requests that were handled
(`SoloMiner.Server.Replied`).
-/

namespace SoloMiner

open Json

/-- The ids of the replies among the lines. -/
def replyIds (lines : List Incoming) : List (Option UInt64) :=
  lines.filterMap fun
    | .response response => some response.id
    | .request _ => none

theorem replyIds_append (lines lines' : List Incoming) :
    replyIds (lines ++ lines') = replyIds lines ++ replyIds lines' :=
  List.filterMap_append

theorem mem_replyIds {lines : List Incoming} {id : Option UInt64} :
    id ∈ replyIds lines ↔ ∃ response, .response response ∈ lines ∧ response.id = id := by
  rw [replyIds, List.mem_filterMap]
  constructor
  · rintro ⟨line, hline, hid⟩
    cases line with
    | response response => exact ⟨response, hline, Option.some.inj hid⟩
    | request request => exact absurd hid (by simp)
  · rintro ⟨response, hresponse, rfl⟩
    exact ⟨_, hresponse, rfl⟩

/-- A job has no id. -/
theorem replyIds_replicate_notifyLine (n : ℕ) (active : ActiveJob) :
    replyIds (List.replicate n (Server.notifyLine active)) = [] :=
  List.filterMap_eq_nil_iff.mpr fun line hline => by rw [List.eq_of_mem_replicate hline]; rfl

/-- The ids that an operation of a reader replies to. -/
def Effect.replyIds (effect : Effect) : List (Option UInt64) :=
  SoloMiner.replyIds (Server.linesOf effect)

/-- There is at most one. -/
theorem Effect.reverse_replyIds (effect : Effect) : effect.replyIds.reverse = effect.replyIds := by
  cases effect with
  | send line => cases line <;> rfl
  | _ => rfl

/-! ### What a session replies -/

namespace Session

variable {session : Session} {difficulty : UInt32 → Value} {request : Request}

theorem emits_reply (response : Response) :
    (reply response).Emits Effect.replyIds [response.id] :=
  ⟨[], rfl, fun _ => rfl⟩

theorem emits_notify (request : Request) : (notify request).Emits Effect.replyIds [] :=
  ⟨[], rfl, fun _ => rfl⟩

theorem emits_answerShare (id : Option UInt64) (outcome : Except ValidationError Verdict) :
    (answerShare id outcome).Emits Effect.replyIds [id] := by
  have hrefresh : (perform .requestRefresh).Emits Effect.replyIds [] := ⟨[], rfl, fun _ => rfl⟩
  rcases outcome with error | ⟨_, _⟩ | ⟨_, _⟩ | ⟨reason, _⟩ | ⟨_, _⟩
  · exact emits_reply _
  · exact (emits_reply _).bind fun _ => hrefresh
  · exact (emits_reply _).bind fun _ => hrefresh
  · exact emits_reply _
  · exact emits_reply _

/-- The check of a share talks to the node and the clock only. -/
theorem emits_check (active : ActiveJob) (share : Share) (extranonce1 : Bytes) :
    (check active share extranonce1).Emits Effect.replyIds [] :=
  ((only_check active share extranonce1).mono fun effect heffect => by
    cases effect <;> first | rfl | exact absurd heffect id).emits_nil

theorem emits_onSubmit : (session.onSubmit request).Emits Effect.replyIds [request.id] := by
  rw [onSubmit]
  split_ifs
  · exact emits_reply _
  · split
    · refine ⟨[request.id], rfl, fun job => ?_⟩
      cases job with
      | none => exact emits_reply _
      | some active =>
        exact (emits_check _ _ _).bind fun outcome => emits_answerShare _ outcome
    · exact emits_reply _
    · exact trivial

theorem emits_sendCurrentWork : (sendCurrentWork difficulty).Emits Effect.replyIds [] := by
  refine ⟨[], rfl, fun job => ?_⟩
  cases job with
  | none => exact rfl
  | some active => exact (emits_notify _).bind fun _ => emits_notify _

theorem emits_onAuthorize :
    (session.onAuthorize difficulty request).Emits Effect.replyIds [request.id] :=
  (emits_reply _).bind fun _ => emits_sendCurrentWork.bind fun _ => rfl

theorem emits_onSubscribe : (session.onSubscribe request).Emits Effect.replyIds [request.id] :=
  (emits_reply _).bind fun _ => ⟨[], rfl, fun _ => rfl⟩

/-- **A request has one reply**, with its id, whatever its handler is answered. -/
theorem emits_onRequest :
    (session.onRequest difficulty request).Emits Effect.replyIds [request.id] := by
  rw [onRequest]
  split_ifs
  · exact emits_onSubscribe.bind fun _ => rfl
  · exact emits_onAuthorize
  · exact emits_onSubmit.bind fun _ => rfl
  · exact (emits_reply _).bind fun _ => rfl

/-- A line that holds no request has no reply. -/
theorem emits_dispatch (session : Session) (difficulty : UInt32 → Value)
    (fromStr : Str → Option Value) (text : Str) :
    (session.dispatch fromStr difficulty text).Emits Effect.replyIds
      ((Server.requestOf fromStr text).toList.map Request.id) := by
  rw [dispatch, Server.requestOf]
  rcases Incoming.parse fromStr text with _ | request | response
  · exact rfl
  · exact emits_onRequest.bind fun _ => rfl
  · exact rfl

end Session

/-! ### The replies on a channel -/

theorem Thread.writing_resume (t : Thread) (request : Option Request)
    (code : PoolProg (Session × Bool)) : (t.resume request code).writing = t.writing := by
  rcases code with ⟨session, _ | _⟩ | _ | _ <;> rfl

/-- **The requests that were handled have their replies**, in their order: of the request
in hand, some have come and the rest will. -/
def Thread.Replied (t : Thread) : Prop :=
  match t.phase with
  | .handling request code => ∃ come left, code.Emits Effect.replyIds left ∧
      come ++ left = request.toList.map Request.id ∧
        replyIds t.sent = come.reverse ++ t.handled.map Request.id
  | .crashed => ∃ come, come.length ≤ 1 ∧ replyIds t.sent = come ++ t.handled.map Request.id
  | .waiting | .closing | .returned => replyIds t.sent = t.handled.map Request.id

namespace Thread.Replied

variable {t : Thread}

/-- Of the request in hand there is at most one reply. -/
theorem length_le {request : Option Request} {come left : List (Option UInt64)}
    (h : come ++ left = request.toList.map Request.id) : come.length ≤ 1 := by
  have hlength := congrArg List.length h
  rw [List.length_append, List.length_map] at hlength
  have hone : request.toList.length ≤ 1 := by cases request <;> simp
  omega

/-- A reader that goes on with its code, when some replies have come. -/
theorem resume {request : Option Request} {code : PoolProg (Session × Bool)}
    {come left : List (Option UInt64)} (hcode : code.Emits Effect.replyIds left)
    (hids : come ++ left = request.toList.map Request.id)
    (hsent : replyIds t.sent = come.reverse ++ t.handled.map Request.id) :
    (t.resume request code).Replied := by
  -- Once the code has returned, all have come.
  have hended : left = [] → replyIds t.sent = (request.toList ++ t.handled).map Request.id := by
    rintro rfl
    rw [List.append_nil] at hids
    rw [hsent, hids, List.map_append]
    cases request <;> rfl
  rcases code with ⟨session, _ | _⟩ | _ | ⟨effect, next⟩
  · exact hended hcode
  · exact hended hcode
  · exact ⟨come.reverse, by rw [List.length_reverse]; exact length_le hids, hsent⟩
  · exact ⟨come, left, hcode, hids, hsent⟩

/-- **One operation of a reader** that has a writer. -/
theorem perform {request : Option Request} {effect : Effect}
    {next : effect.Answer → PoolProg (Session × Bool)} (h : t.Replied)
    (hphase : t.phase = .handling request (.op effect next)) (hwriting : t.writing = true)
    (answer : effect.Answer) :
    ((t.receive (Server.linesOf effect)).resume request (next answer)).Replied := by
  rw [Replied, hphase] at h
  obtain ⟨come, left, ⟨rest, rfl, hnext⟩, hids, hsent⟩ := h
  have hids' : (come ++ effect.replyIds) ++ rest = request.toList.map Request.id :=
    (List.append_assoc _ _ _).trans hids
  refine resume (hnext answer) hids' ?_
  change replyIds (t.put (Server.linesOf effect)) = _
  rw [put, if_pos hwriting, replyIds_append, hsent, List.reverse_append, List.append_assoc,
    effect.reverse_replyIds]
  rfl

/-- Jobs that are put on the channel make no difference. -/
theorem receive_notifyLines (h : t.Replied) (n : ℕ) (active : ActiveJob) :
    (t.receive (List.replicate n (Server.notifyLine active))).Replied := by
  have hsent : replyIds (t.put (List.replicate n (Server.notifyLine active))) =
      replyIds t.sent := by
    rw [put]
    split_ifs
    · rw [replyIds_append, replyIds_replicate_notifyLine, List.nil_append]
    · rfl
  rw [Replied] at h ⊢
  rw [receive]
  dsimp only
  rwa [hsent]

end Thread.Replied

namespace Server

variable {fromStr : Str → Option Value} {difficulty : UInt32 → Value} {s s' : Server}

/-- **Every channel that has a writer** holds the replies to the requests that were handled. -/
def Replied (s : Server) : Prop :=
  ∀ (i : ℕ) (t : Thread), s.threads[i]? = some t → t.writing = true → t.Replied

theorem replied_init : init.Replied := fun _ _ ht => absurd ht (by simp [init])

/-- **One event keeps the replies in order.** -/
theorem Replied.of_step (hs : s.Replied) {event : Event}
    (h : step fromStr difficulty s event = some s') : s'.Replied := by
  intro i u hu hwriting
  cases event with
  | connect =>
    obtain rfl := step_connect h
    rcases getElem?_concat_cases hu with hu | ⟨-, rfl⟩
    · exact hs i u hu hwriting
    · exact rfl
  | refuse =>
    obtain rfl := step_refuse h
    exact hs i u hu hwriting
  | line j text =>
    obtain ⟨t, ht, hphase, ⟨-, rfl⟩ | ⟨-, rfl⟩⟩ := step_line h
    · exact hs i u hu hwriting
    · rcases getElem?_set_cases hu with ⟨rfl, rfl⟩ | ⟨-, hu⟩
      · rw [Thread.writing_resume] at hwriting
        have hreplied := hs i t ht hwriting
        rw [Thread.Replied, hphase] at hreplied
        have hcode := t.session.emits_dispatch difficulty
          fromStr text
        have hnone : [] ++ (requestOf fromStr text).toList.map Request.id =
            (requestOf fromStr text).toList.map Request.id := rfl
        exact Thread.Replied.resume hcode hnone hreplied
      · exact hs i u hu hwriting
  | perform j world =>
    obtain ⟨t, request, effect, next, ht, hphase, rfl⟩ := step_perform h
    rcases getElem?_set_cases hu with ⟨rfl, rfl⟩ | ⟨-, hu⟩
    · rw [Thread.writing_resume] at hwriting
      exact (hs i t ht hwriting).perform hphase hwriting _
    · exact hs i u hu hwriting
  | hangUp j =>
    obtain ⟨t, ht, hphase, rfl⟩ := step_hangUp h
    rcases getElem?_set_cases hu with ⟨rfl, rfl⟩ | ⟨-, hu⟩
    · have hreplied := hs i t ht hwriting
      rw [Thread.Replied, hphase] at hreplied
      exact hreplied
    · exact hs i u hu hwriting
  | unregister j =>
    obtain ⟨t, ht, hphase, rfl⟩ := step_unregister h
    rcases getElem?_set_cases hu with ⟨rfl, rfl⟩ | ⟨-, hu⟩
    · have hreplied := hs i t ht hwriting
      rw [Thread.Replied, hphase] at hreplied
      exact hreplied
    · exact hs i u hu hwriting
  | writerEnds j =>
    obtain ⟨t, ht, rfl⟩ := step_writerEnds h
    rcases getElem?_set_cases hu with ⟨rfl, rfl⟩ | ⟨-, hu⟩
    · exact absurd hwriting (by simp)
    · exact hs i u hu hwriting
  | startJob =>
    obtain ⟨-, rfl⟩ := step_startJob h
    exact hs i u hu hwriting
  | abandon =>
    obtain ⟨_, -, rfl⟩ := step_abandon h
    exact hs i u hu hwriting
  | install active =>
    obtain ⟨-, rfl⟩ := step_install h
    exact hs i u hu hwriting
  | announce =>
    obtain ⟨active, -, rfl⟩ := step_announce h
    rw [List.getElem?_mapIdx] at hu
    obtain ⟨t, ht, rfl⟩ := Option.map_eq_some_iff.mp hu
    exact (hs i t ht hwriting).receive_notifyLines _ _

end Server

end SoloMiner
