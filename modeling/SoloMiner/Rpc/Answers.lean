import SoloMiner.Rpc.Client

/-!
# What a call returns

A call to the node returns what the node answered, as a value or as an error of one of
several kinds, and says which (`SoloMiner.Rpc.Classified`). That goes for any status and
any body, for connections that fail and for cookies that cannot be read, with one
exception (`SoloMiner.Rpc.RpcClient.handled_iff`): where the body is not JSON, the error
quotes its first 200 bytes, and that panics if the 200th is in the middle of a character.
-/

namespace SoloMiner

namespace Rpc

open Json
open Prog (Runs Trace attempt)

variable {IoError JsonError T : Type} {trace : Trace (NodeOp.Answer IoError)}

/-! ### What a response stands for -/

/-- The body is longer than 200 bytes, and no start of it has exactly as many: a character
covers the place where it would be cut. -/
def CutsChar (body : Str) : Prop :=
  200 < Hex.utf8Len body ∧ ¬ ∃ start rest, body = start ++ rest ∧ Hex.utf8Len start = 200

/-- The text is the body, or the first 200 bytes of a longer one and how long it is. -/
def Quotes (body text : Str) : Prop :=
  (Hex.utf8Len body ≤ 200 ∧ text = body) ∨
    ∃ start rest, 200 < Hex.utf8Len body ∧ body = start ++ rest ∧ Hex.utf8Len start = 200 ∧
      text = start ++ "… (".toList ++ decimal (Hex.utf8Len body) ++ " bytes total)".toList

/-- **Trimming panics precisely where it would cut a character**, and makes no error. -/
theorem truncate_cases {ε : Type} (body : Str) :
    (CutsChar body ∧ (truncate body : Checked ε Str) = .panic) ∨
      ¬ CutsChar body ∧ ∃ text, (truncate body : Checked ε Str) = .ok text ∧ Quotes body text := by
  have hslice : Hex.sliceBytes body 0 200 = (Hex.splitAtByte body 200).map Prod.fst :=
    Hex.sliceBytes_of_split 200 (Hex.splitAtByte_zero body)
  rw [truncate, hslice]
  split_ifs with hshort
  · exact Or.inr ⟨fun h => absurd h.1 (by omega), _, rfl, Or.inl ⟨hshort, rfl⟩⟩
  · cases hsplit : Hex.splitAtByte body 200 with
    | none =>
      refine Or.inl ⟨⟨by omega, ?_⟩, rfl⟩
      rintro ⟨start, rest, rfl, hlen⟩
      rw [← hlen, Hex.splitAtByte_append] at hsplit
      exact absurd hsplit (by simp)
    | some halves =>
      obtain ⟨hbody, hlen⟩ := Hex.append_of_split hsplit
      exact Or.inr ⟨fun h => h.2 ⟨halves.1, halves.2, hbody, hlen⟩, _, rfl,
        Or.inr ⟨halves.1, halves.2, not_le.mp hshort, hbody, hlen, rfl⟩⟩

section Json

variable (fromStr : Str → Except JsonError Value) (fromValue : Value → Except JsonError T)

/-- **What a response that was not refused can stand for.** -/
inductive Classified (method : Str) (response : Response) :
    Except (RpcError IoError JsonError) T → Prop
  /-- The body is not JSON. -/
  | malformed {source : JsonError} {text : Str} (h : fromStr response.body = .error source)
    (htext : Quotes response.body text) :
    Classified method response (.error (.malformedResponse method response.status text source))
  /-- It has an `error` that is not null. -/
  | rpc {parsed error : Value} (h : fromStr response.body = .ok parsed)
    (herror : parsed.getField "error".toList = some error) (hnull : error ≠ .null) :
    Classified method response (.error (RpcClient.rpcError method error))
  /-- It has none, and no `result` either, -/
  | missing {parsed : Value} (h : fromStr response.body = .ok parsed)
    (herror : ∀ error, parsed.getField "error".toList = some error → error = .null)
    (hresult : parsed.getField "result".toList = none) :
    Classified method response (.error (.missingResult method))
  /-- or a `result` of another type -/
  | shape {parsed result : Value} {source : JsonError} (h : fromStr response.body = .ok parsed)
    (herror : ∀ error, parsed.getField "error".toList = some error → error = .null)
    (hresult : parsed.getField "result".toList = some result)
    (hvalue : fromValue result = .error source) :
    Classified method response (.error (.unexpectedShape method source))
  /-- or of the type that is expected. -/
  | value {parsed result : Value} {value : T} (h : fromStr response.body = .ok parsed)
    (herror : ∀ error, parsed.getField "error".toList = some error → error = .null)
    (hresult : parsed.getField "result".toList = some result)
    (hvalue : fromValue result = .ok value) : Classified method response (.ok value)

theorem eq_null_of_isNull {value : Value} (h : value.isNull = true) : value = .null := by
  cases value with
  | null => rfl
  | _ => exact absurd h (by simp [Value.isNull])

/-- The body is not JSON, and the start of it that the error quotes cannot be cut off. -/
def Unquotable (response : Response) : Prop :=
  ∃ source, fromStr response.body = .error source ∧ CutsChar response.body

/-- **What a call ends with** when there is a response. -/
inductive Concluded (method : Str) (response : Response) :
    Option (Except (RpcError IoError JsonError) T) → Prop
  /-- It was refused. -/
  | refused (h : response.status = 401) : Concluded method response (some (.error .unauthorized))
  /-- Quoting it panics, -/
  | panics (hstatus : response.status ≠ 401) (h : Unquotable fromStr response) :
    Concluded method response none
  /-- and otherwise it stands for something. -/
  | classified {result : Except (RpcError IoError JsonError) T} (hstatus : response.status ≠ 401)
    (hquote : ¬ Unquotable fromStr response)
    (h : Classified fromStr fromValue method response result) :
    Concluded method response (some result)

namespace RpcClient

variable {fromStr fromValue} {method : Str} {response : Response}
  {result : Option (Except (RpcError IoError JsonError) T)}

/-- Every tree stands for a value or an error of the right kind. -/
theorem runs_answer {parsed : Value} (hjson : fromStr response.body = .ok parsed)
    (h : Runs (attempt (answer fromValue method parsed) fun value => pure (.ok value)) trace
      result) :
    trace = [] ∧ ∃ r, result = some r ∧ Classified fromStr fromValue method response r := by
  rw [answer] at h
  cases herror : (parsed.getField "error".toList).filter fun error => !error.isNull with
  | some error =>
    rw [herror] at h
    obtain ⟨rfl, rfl⟩ := Prog.runs_ret_iff.mp h
    obtain ⟨hfield, hnull⟩ := Option.filter_eq_some_iff.mp herror
    refine ⟨rfl, _, rfl, .rpc hjson hfield ?_⟩
    rintro rfl
    exact absurd hnull (by simp [Value.isNull])
  | none =>
    have hnull : ∀ error, parsed.getField "error".toList = some error → error = .null := by
      intro error hfield
      have hfilter := Option.filter_eq_none_iff.mp herror error hfield
      exact eq_null_of_isNull (by simpa using hfilter)
    rw [herror] at h
    cases hresult : parsed.getField "result".toList with
    | none =>
      rw [hresult] at h
      obtain ⟨rfl, rfl⟩ := Prog.runs_ret_iff.mp h
      exact ⟨rfl, _, rfl, .missing hjson hnull hresult⟩
    | some tree =>
      rw [hresult] at h
      cases hvalue : fromValue tree with
      | error source =>
        simp only [hvalue] at h
        obtain ⟨rfl, rfl⟩ := Prog.runs_ret_iff.mp h
        exact ⟨rfl, _, rfl, .shape hjson hnull hresult hvalue⟩
      | ok value =>
        simp only [hvalue] at h
        obtain ⟨rfl, rfl⟩ := Prog.runs_ret_iff.mp h
        exact ⟨rfl, _, rfl, .value hjson hnull hresult hvalue⟩

/-- **A response is concluded from** without asking for anything more. -/
theorem runs_conclude (h : Runs (attempt (conclude fromStr fromValue method response)
      fun value => pure (.ok value)) trace result) :
    trace = [] ∧ Concluded fromStr fromValue method response result := by
  rw [conclude] at h
  split_ifs at h with hstatus
  · obtain ⟨rfl, rfl⟩ := Prog.runs_ret_iff.mp h
    exact ⟨rfl, .refused hstatus⟩
  · cases hjson : fromStr response.body with
    | error source =>
      rw [hjson] at h
      rcases truncate_cases (ε := RpcError IoError JsonError) response.body with
        ⟨hcut, htext⟩ | ⟨hcut, text, htext, hquotes⟩
      · simp only [htext] at h
        obtain ⟨rfl, rfl⟩ := Prog.runs_panic_iff.mp h
        exact ⟨rfl, .panics hstatus ⟨source, hjson, hcut⟩⟩
      · simp only [htext] at h
        obtain ⟨rfl, rfl⟩ := Prog.runs_ret_iff.mp h
        exact ⟨rfl, .classified hstatus (fun ⟨_, _, h⟩ => hcut h) (.malformed hjson hquotes)⟩
    | ok parsed =>
      rw [hjson] at h
      obtain ⟨rfl, r, rfl, hr⟩ := runs_answer hjson h
      exact ⟨rfl, .classified hstatus (fun ⟨_, h, _⟩ => absurd (hjson.symm.trans h) (by simp)) hr⟩

variable {toString : Value → Str} {self : RpcClient} {path : Str} {params : Value}

/-- **A call is its posts, and what its response stands for.** -/
theorem runs_callAt
    (h : Runs (self.callAt fromStr fromValue toString path method params) trace result) :
    (∃ error, Exchanged (posts trace) (reloads trace)
        (.error error : Except (RpcError IoError JsonError) Response) ∧
        result = some (.error error)) ∨
      ∃ response, Exchanged (posts trace) (reloads trace)
        (.ok response : Except (RpcError IoError JsonError) Response) ∧
        Concluded fromStr fromValue method response result := by
  obtain ⟨id, rest, rfl, hcall⟩ := Prog.runs_perform_bind_iff.mp h
  rcases Prog.runs_bind_iff.mp hcall with ⟨first, last, r, rfl, hfirst, hlast⟩ | ⟨-, hpanic⟩
  · obtain ⟨r, hr, hexchanged⟩ := runs_exchange hfirst
    obtain rfl := Option.some.inj hr
    cases r with
    | error error =>
      obtain ⟨rfl, rfl⟩ := Prog.runs_pure_iff.mp hlast
      rw [List.append_nil]
      exact Or.inl ⟨error, hexchanged, rfl⟩
    | ok response =>
      obtain ⟨rfl, hconcluded⟩ := runs_conclude hlast
      rw [List.append_nil]
      exact Or.inr ⟨response, hexchanged, hconcluded⟩
  · obtain ⟨r, hr, -⟩ := runs_exchange hpanic
    exact absurd hr (by simp)

end RpcClient

/-! ### Every answer becomes a result -/

/-- The node refused what was posted. -/
def Refused (outcome : Option (Except (HttpError IoError) Response)) : Prop :=
  ∃ response, outcome = some (.ok response) ∧ response.status = 401

/-- What a call is to return for the outcomes of its posts, and how often it is to re-read
the cookie: there is a result for whatever the node answers. -/
structure Handled (method : Str) (outcomes : List (Except (HttpError IoError) Response))
    (reloads : ℕ) (result : Option (Except (RpcError IoError JsonError) T)) : Prop where
  /-- There is no panic, -/
  returns : ∃ r, result = some r
  /-- and at most two posts. -/
  posts : outcomes.length ≤ 2
  /-- The cookie is re-read once if the first post is refused, -/
  reloaded : Refused outcomes.head? → reloads = 1
  /-- and not otherwise. -/
  notReloaded : ¬ Refused outcomes.head? → reloads = 0
  /-- Only two refusals are an error about the credentials. -/
  unauthorized : result = some (.error .unauthorized) ↔ ∃ response response',
    outcomes = [.ok response, .ok response'] ∧ response.status = 401 ∧ response'.status = 401
  /-- A post that fails is an error of its own, -/
  transport : ∀ source, outcomes.getLast? = some (.error source) →
    result = some (.error (.http source))
  /-- and so is a cookie that cannot be read after a refusal. -/
  cookie : ∀ response, outcomes = [.ok response] → response.status = 401 →
    ∃ source, result = some (.error (.auth source))
  /-- In all other cases the last body decides. -/
  answered : ∀ response, outcomes.getLast? = some (.ok response) → response.status ≠ 401 →
    ∃ r, result = some r ∧ Classified fromStr fromValue method response r

/-- The last response was not refused, and its body cannot be quoted. -/
def LastUnquotable (outcomes : List (Except (HttpError IoError) Response)) : Prop :=
  ∃ response, outcomes.getLast? = some (.ok response) ∧ response.status ≠ 401 ∧
    Unquotable fromStr response

variable {fromStr fromValue} {method : Str} {response : Response}
  {result : Option (Except (RpcError IoError JsonError) T)}

/-- Nothing that a response stands for is an error about the credentials. -/
theorem Classified.ne_unauthorized {r : Except (RpcError IoError JsonError) T}
    (h : Classified fromStr fromValue method response r) : r ≠ .error .unauthorized := by
  cases h with
  | rpc =>
    intro heq
    have hrpc : RpcError.rpc _ _ _ = (.unauthorized : RpcError IoError JsonError) :=
      Except.error.inj heq
    cases hrpc
  | _ => simp

/-- A response that is not refused, and can be quoted, is classified. -/
theorem Concluded.classified_of_not (h : Concluded fromStr fromValue method response result)
    (hstatus : response.status ≠ 401) (hquote : ¬ Unquotable fromStr response) :
    ∃ r, result = some r ∧ Classified fromStr fromValue method response r := by
  cases h with
  | refused h => exact absurd h hstatus
  | panics _ h => exact absurd h hquote
  | classified _ _ h => exact ⟨_, rfl, h⟩

/-- A response that is refused is an error about the credentials. -/
theorem Concluded.eq_of_refused (h : Concluded fromStr fromValue method response result)
    (hstatus : response.status = 401) : result = some (.error .unauthorized) := by
  cases h with
  | refused _ => rfl
  | panics h _ => exact absurd hstatus h
  | classified h _ _ => exact absurd hstatus h

theorem not_refused_error (source : HttpError IoError) :
    ¬ Refused (some (.error source : Except (HttpError IoError) Response)) := by
  rintro ⟨response, h, -⟩
  exact absurd h (by simp)

theorem refused_ok_iff : Refused (some (.ok response : Except (HttpError IoError) Response)) ↔
    response.status = 401 := by
  constructor
  · rintro ⟨response', h, hstatus⟩
    obtain rfl := Except.ok.inj (Option.some.inj h)
    exact hstatus
  · exact fun h => ⟨response, rfl, h⟩

variable {outcomes : List (Except (HttpError IoError) Response)} {n : ℕ}

/-- Posts that end without a response are an error that says why. -/
theorem Exchanged.handled_error {error : RpcError IoError JsonError}
    (h : Exchanged outcomes n (.error error : Except (RpcError IoError JsonError) Response)) :
    Handled fromStr fromValue method outcomes n (some (.error error)) ∧
      ¬ LastUnquotable fromStr outcomes := by
  cases h with
  | failed source =>
    refine ⟨⟨⟨_, rfl⟩, by simp, fun h => absurd h (not_refused_error source), fun _ => rfl, by simp,
      by simp, by simp, by simp⟩, ?_⟩
    rintro ⟨response, hlast, -⟩
    exact absurd hlast (by simp)
  | @noCookie response hstatus source =>
    refine ⟨⟨⟨_, rfl⟩, by simp, fun _ => rfl, fun h => absurd (refused_ok_iff.mpr hstatus) h,
      by simp, by simp, fun _ _ _ => ⟨source, rfl⟩, fun response' hlast hne => ?_⟩, ?_⟩
    · obtain rfl := Except.ok.inj (Option.some.inj hlast)
      exact absurd hstatus hne
    · rintro ⟨response', hlast, hne, -⟩
      obtain rfl := Except.ok.inj (Option.some.inj hlast)
      exact hne hstatus
  | @failedAgain response hstatus source =>
    refine ⟨⟨⟨_, rfl⟩, le_rfl, fun _ => rfl, fun h => absurd (refused_ok_iff.mpr hstatus) h,
      by simp, fun source' hlast => ?_, by simp, by simp⟩, ?_⟩
    · obtain rfl := Except.error.inj (Option.some.inj hlast)
      rfl
    · rintro ⟨response', hlast, -⟩
      exact absurd hlast (by simp)

/-- The response that counts is the last one. -/
theorem Exchanged.getLast?_eq
    (h : Exchanged outcomes n (.ok response : Except (RpcError IoError JsonError) Response)) :
    outcomes.getLast? = some (.ok response) := by
  cases h with
  | taken => rfl
  | again => rfl

/-- Posts that end with a response are an error about the credentials, or what the response
stands for. -/
theorem Exchanged.handled_ok
    (h : Exchanged outcomes n (.ok response : Except (RpcError IoError JsonError) Response))
    (hconcluded : Concluded fromStr fromValue method response result)
    (hlast : ¬ LastUnquotable fromStr outcomes) :
    Handled fromStr fromValue method outcomes n result := by
  have hend := h.getLast?_eq
  have hanswered : ∀ response', outcomes.getLast? = some (.ok response') →
      response'.status ≠ 401 → ∃ r, result = some r ∧
        Classified fromStr fromValue method response' r := by
    intro response' hlast' hstatus
    rw [hend] at hlast'
    obtain rfl := Except.ok.inj (Option.some.inj hlast')
    exact hconcluded.classified_of_not hstatus fun hquote => hlast ⟨response, hend, hstatus, hquote⟩
  have hnot : response.status ≠ 401 → result ≠ some (.error .unauthorized) := by
    intro hstatus heq
    obtain ⟨r, rfl, hr⟩ := hanswered response hend hstatus
    exact hr.ne_unauthorized (Option.some.inj heq)
  have hreturns : ∃ r, result = some r := by
    by_cases hstatus : response.status = 401
    · exact ⟨_, hconcluded.eq_of_refused hstatus⟩
    · obtain ⟨r, hr, -⟩ := hanswered response hend hstatus
      exact ⟨r, hr⟩
  cases h with
  | taken hstatus =>
    refine ⟨hreturns, by simp, fun h => absurd (refused_ok_iff.mp h) hstatus, fun _ => rfl,
      iff_of_false (hnot hstatus) (by simp), by simp, fun response' h hrefused => ?_, hanswered⟩
    obtain rfl := Except.ok.inj (List.singleton_inj.mp h)
    exact absurd hrefused hstatus
  | @again first hstatus =>
    refine ⟨hreturns, le_rfl, fun _ => rfl, fun h => absurd (refused_ok_iff.mpr hstatus) h,
      ⟨fun heq => ⟨first, response, rfl, hstatus, ?_⟩, ?_⟩, by simp, by simp, hanswered⟩
    · by_contra hsecond
      exact hnot hsecond heq
    · rintro ⟨response₁, response₂, heq, -, hsecond⟩
      obtain rfl : response = response₂ := by simpa using (List.cons.inj heq).2
      exact hconcluded.eq_of_refused hsecond

namespace RpcClient

variable {toString : Value → Str} {self : RpcClient} {path : Str} {params : Value}

/-- **Every answer becomes a result, unless its body cannot be quoted**: precisely then the
call panics. -/
theorem handled_iff
    (h : Runs (self.callAt fromStr fromValue toString path method params) trace result) :
    Handled fromStr fromValue method (posts trace) (reloads trace) result ↔
      ¬ LastUnquotable fromStr (posts trace) := by
  rcases runs_callAt h with ⟨error, hexchanged, rfl⟩ | ⟨response, hexchanged, hconcluded⟩
  · obtain ⟨hhandled, hlast⟩ : Handled fromStr fromValue method _ _ (some (.error error)) ∧ _ :=
      hexchanged.handled_error
    exact iff_of_true hhandled hlast
  · refine ⟨?_, hexchanged.handled_ok hconcluded⟩
    rintro hhandled ⟨response', hlast, hstatus, hquote⟩
    rw [hexchanged.getLast?_eq] at hlast
    obtain rfl := Except.ok.inj (Option.some.inj hlast)
    obtain ⟨r, rfl⟩ := hhandled.returns
    cases hconcluded with
    | refused hrefused => exact hstatus hrefused
    | classified _ hnot _ => exact hnot hquote

/-- The run of a call whose first post is not refused. -/
theorem runs_callAt_of_taken {id : UInt64} {credentials : Credentials}
    (hstatus : response.status ≠ 401)
    (h : Runs (attempt (conclude fromStr fromValue method response) fun value => pure (.ok value))
      ([] : Trace (NodeOp.Answer IoError)) result) :
    Runs (self.callAt fromStr fromValue toString path method params)
      [⟨.nextId, id⟩, ⟨.credentials, credentials⟩,
        ⟨.postJson path credentials.authorizationHeader
          (toString (requestValue id method params)), .ok response⟩] result := by
  have hexchange : Runs (self.exchange path (toString (requestValue id method params)))
      [⟨.credentials, credentials⟩, ⟨.postJson path credentials.authorizationHeader
        (toString (requestValue id method params)), .ok response⟩]
      (some (.ok response : Except (RpcError IoError JsonError) Response)) := by
    refine .op (.op ?_)
    change Runs (ite (response.status = 401) _ _) _ _
    rw [if_neg hstatus]
    exact .ret _
  refine Prog.runs_perform_bind_iff.mpr ⟨id, _, rfl, ?_⟩
  exact Prog.runs_bind_iff.mpr (Or.inl ⟨_, [], _, (List.append_nil _).symm, hexchange, h⟩)

/-- The end of a call whose response cannot be quoted. -/
theorem runs_conclude_of_unquotable (hstatus : response.status ≠ 401)
    (h : Unquotable fromStr response) :
    Runs (attempt (conclude fromStr fromValue method response) fun value => pure (.ok value))
      ([] : Trace (NodeOp.Answer IoError))
      (none : Option (Except (RpcError IoError JsonError) T)) := by
  obtain ⟨source, hjson, hcut⟩ := h
  rcases truncate_cases (ε := RpcError IoError JsonError) response.body with ⟨-, htext⟩ | ⟨hnot, -⟩
  · rw [conclude, if_neg hstatus]
    simp only [hjson, htext]
    exact .panic
  · exact absurd hcut hnot

/-- The first request for the height, as text. -/
def sampleRequest : Str :=
  "\x7b\"id\":\"1\",\"jsonrpc\":\"1.0\",\"method\":\"getblockcount\",\"params\":[]\x7d".toList

/-- The run of that request when it has this response. -/
def sampleTrace (response : Response) : Trace (NodeOp.Answer Unit) :=
  let cookie : Credentials := ⟨"__cookie__:secret".toList⟩
  [⟨.nextId, (1 : UInt64)⟩, ⟨.credentials, cookie⟩,
    ⟨.postJson "/".toList cookie.authorizationHeader sampleRequest, .ok response⟩]

/-- The body `null` has neither an error nor a result. -/
theorem handled_null :
    Handled (fun _ => .ok .null : Str → Except Unit Value)
      (fun value => Except.ok value.isNull : Value → Except Unit Bool) "getblockcount".toList
      (posts (sampleTrace ⟨200, "null".toList⟩)) (reloads (sampleTrace ⟨200, "null".toList⟩))
      (some (.error (.missingResult "getblockcount".toList))) := by
  have hrun : Runs (callAt (fun _ => .ok .null : Str → Except Unit Value)
      (fun value => Except.ok value.isNull : Value → Except Unit Bool) (fun _ => sampleRequest)
      ⟨".cookie".toList⟩ "/".toList "getblockcount".toList (.array []))
      (sampleTrace ⟨200, "null".toList⟩)
      (some (.error (.missingResult "getblockcount".toList))) := .op (.op (.op (.ret _)))
  refine (handled_iff hrun).mpr ?_
  rintro ⟨response, -, -, source, h, -⟩
  exact absurd h (by simp)

/-- A body of 201 bytes that is not JSON, and whose last character has two bytes. -/
def accentedBody : Str := List.replicate 199 'a' ++ ['é']

/-- Quoting that body panics. -/
theorem not_handled_accentedBody :
    Runs (callAt (fun _ => .error () : Str → Except Unit Value)
        (fun value => Except.ok value.isNull : Value → Except Unit Bool) (fun _ => sampleRequest)
        ⟨".cookie".toList⟩ "/".toList "getblockcount".toList (.array []))
        (sampleTrace ⟨500, accentedBody⟩) none ∧
      ¬ Handled (fun _ => .error () : Str → Except Unit Value)
        (fun value => Except.ok value.isNull : Value → Except Unit Bool) "getblockcount".toList
        (posts (sampleTrace ⟨500, accentedBody⟩)) (reloads (sampleTrace ⟨500, accentedBody⟩))
        none := by
  have hcut : CutsChar accentedBody := by
    refine ⟨by decide +kernel, ?_⟩
    rintro ⟨start, rest, hbody, hlen⟩
    have hsplit := Hex.splitAtByte_append start rest
    rw [← hbody, hlen] at hsplit
    have hnone : Hex.splitAtByte accentedBody 200 = none := by decide +kernel
    exact Option.some_ne_none _ (hsplit.symm.trans hnone)
  refine ⟨runs_callAt_of_taken (by decide) ?_, fun h => ?_⟩
  · exact runs_conclude_of_unquotable (by decide) ⟨(), rfl, hcut⟩
  · obtain ⟨r, hr⟩ := h.returns
    exact absurd hr (by simp)

end RpcClient

end Json

end Rpc

end SoloMiner
