import SoloMiner.Lib.Lines
import SoloMiner.Pool.Replies
import SoloMiner.System.Shares

/-!
# Connections that break anywhere

Both programs write a message as one line, and read lines off the connection: the session
of the pool dispatches each of them, and the reader of the miner parses it and passes it on.
A connection may break in the middle of a line, and then the part that has come is read as
a line, too.

It does nothing (`SoloMiner.Framing.readers_faithful`). Wherever the bytes of some messages are
cut, by the end of the connection or by an error, the miner passes on the messages that have
arrived, in order and none left out, and the session of the pool does what it does on their
lines. That a library which reads JSON does not read a part of a text that it has written is
a condition on the texts (`SoloMiner.Framing.Sendable`), as it is that it reads the whole.
-/

namespace SoloMiner

open Json ByteStream

namespace Framing

variable {fromStr : Str → Option Value} {difficulty : UInt32 → Value} {self : Session}
  {line : Str} {pool : PoolState} {inputs : List (Str × PoolState)}
  {traces : List (Prog.Trace Effect.Answer)}

/-- What the reader of the miner passes on of these lines: the messages in them. A blank line
is skipped, and one that cannot be parsed is printed. -/
def received (fromStr : Str → Option Value) (texts : List Str) : List Incoming :=
  texts.filterMap fun line => if isBlank line then none else Incoming.parse fromStr line

/-- The text can be sent as a line: nothing in it looks like the end of one, and no other part
of it is read as JSON. -/
structure Sendable (fromStr : Str → Option Value) (text : Str) : Prop where
  framed : Framed text
  parts : ∀ part, part <+: text → part ≠ text → fromStr part = none

theorem parse_of_none (h : fromStr line = none) : Incoming.parse fromStr line = none := by
  rw [Incoming.parse, h]
  rfl

/-- A line that is no JSON leaves the session as it is. -/
theorem turn_of_none (h : fromStr line = none) :
    self.turn fromStr difficulty line = pure (self, true) := by
  rw [Session.turn, Session.dispatch, parse_of_none h]
  exact ite_self _

/-- So it makes no difference behind other lines. The induction is on these. -/
theorem converses_concat (hline : fromStr line = none)
    (h : Session.Converses fromStr difficulty self (inputs ++ [(line, pool)]) traces) :
    ∃ traces', Session.Converses fromStr difficulty self inputs traces' ∧
      (traces = traces' ∨ traces = traces' ++ [[]]) := by
  induction inputs generalizing self traces with
  | nil =>
    cases h with
    | reads hrun _ hrest =>
      rw [turn_of_none hline, Prog.runs_pure_iff] at hrun
      obtain ⟨rfl, -⟩ := hrun
      cases hrest
      exact ⟨[], .ends self, Or.inr rfl⟩
    | stops hrun _ hstop =>
      rw [turn_of_none hline, Prog.runs_pure_iff] at hrun
      exact absurd hrun.2 (hstop self)
  | cons input inputs ih =>
    obtain ⟨first, pool'⟩ := input
    cases h with
    | reads hrun hconsistent hrest =>
      obtain ⟨traces', hconverses, hsame⟩ := ih hrest
      refine ⟨_ :: traces', .reads hrun hconsistent hconverses, ?_⟩
      rcases hsame with rfl | rfl
      · exact Or.inl rfl
      · exact Or.inr rfl
    | stops hrun hconsistent hstop =>
      exact ⟨_, .stops hrun hconsistent hstop, Or.inl rfl⟩

/-- A part of a line holds no message. -/
theorem received_concat (texts : List Str) (h : fromStr line = none) :
    received fromStr (texts ++ [line]) = received fromStr texts := by
  have hnone : (if isBlank line then none else Incoming.parse fromStr line) = none := by
    rw [parse_of_none h]
    exact ite_self _
  rw [received, List.filterMap_append, List.filterMap_cons, hnone]
  exact List.append_nil _

/-- **Texts that are cut.** The number of those that have arrived is at least that of those which
have come with the end of their line. -/
theorem readers_cut {texts : List Str} (hsendable : ∀ text ∈ texts, Sendable fromStr text)
    {bytes : Bytes} (hbytes : bytes <+: texts.flatMap lineBytes) (fault : Option IoError) :
    ∃ k, (∀ j ≤ texts.length, (texts.take j).flatMap lineBytes <+: bytes → j ≤ k) ∧
      received fromStr (lines ⟨bytes, fault⟩) = received fromStr (texts.take k) ∧
      ∀ (difficulty : UInt32 → Value) (self : Session) (inputs : List (Str × PoolState))
        (traces : List (Prog.Trace Effect.Answer)),
        inputs.map Prod.fst = lines ⟨bytes, fault⟩ →
        Session.Converses fromStr difficulty self inputs traces →
          ∃ whole traces', whole <+: inputs ∧ whole.map Prod.fst = texts.take k ∧
            Session.Converses fromStr difficulty self whole traces' ∧
            (traces = traces' ∨ traces = traces' ++ [[]]) := by
  obtain ⟨k, tail, hlines, htail, hwhole⟩ :=
    lines_prefix (fun text htext => (hsendable text htext).framed) hbytes fault
  refine ⟨k, hwhole, ?_⟩
  rcases htail with rfl | ⟨text, part, htext, rfl, hpart, hne⟩
  · rw [List.append_nil] at hlines
    rw [hlines]
    refine ⟨rfl, fun difficulty self inputs traces hinputs hconverses => ?_⟩
    exact ⟨inputs, traces, List.prefix_refl _, hinputs, hconverses, Or.inl rfl⟩
  · have hnone : fromStr part = none :=
      (hsendable text (List.mem_of_getElem? htext)).parts part hpart hne
    rw [hlines]
    refine ⟨received_concat _ hnone, fun difficulty self inputs traces hinputs hconverses => ?_⟩
    obtain ⟨whole, last, rfl, hfirst, hlast⟩ := List.map_eq_append_iff.mp hinputs
    obtain ⟨⟨line, pool⟩, rfl, rfl⟩ := List.map_eq_singleton_iff.mp hlast
    obtain ⟨traces', hconverses', hsame⟩ := converses_concat hnone hconverses
    exact ⟨whole, traces', List.prefix_append _ _, hfirst, hconverses', hsame⟩

/-- The message arrives, its number if it is a difficulty perhaps as another one. -/
def Arrives (message message' : Incoming) : Prop :=
  message' = message ∨ isDifficulty message = true ∧ isDifficulty message' = true

variable {print : Value → Str} {messages : List Incoming}

/-- Messages whose lines have arrived. -/
theorem received_messages (h : ∀ message ∈ messages, System.Reads fromStr print message) :
    List.Forall₂ Arrives messages
      (received fromStr (messages.map fun message => print message.toValue)) := by
  induction messages with
  | nil => exact .nil
  | cons message messages ih =>
    obtain ⟨hread, h⟩ := List.forall_mem_cons.mp h
    obtain ⟨message', hparse, harrives⟩ := System.parse_of_reads hread
    have hline : (if isBlank (print message.toValue) then none
        else Incoming.parse fromStr (print message.toValue)) = some message' := by
      rw [hread.1]
      exact hparse
    rw [List.map_cons, received, List.filterMap_cons, hline]
    exact .cons harrives (ih h)

/-- **A connection may break anywhere.** Of some messages, any part of the bytes arrives: there
is a number of them, at least that of those which have come with the end of their line, such
that the miner passes on these messages, and the pool's session converses as it does on their
lines. -/
theorem readers_faithful
    (hsendable : ∀ message ∈ messages, Sendable fromStr (print message.toValue))
    (hreads : ∀ message ∈ messages, System.Reads fromStr print message) {bytes : Bytes}
    (hbytes : bytes <+: (messages.map fun message => print message.toValue).flatMap lineBytes)
    (fault : Option IoError) :
    ∃ k, (∀ j ≤ messages.length,
        ((messages.take j).map fun message => print message.toValue).flatMap lineBytes <+: bytes →
          j ≤ k) ∧
      List.Forall₂ Arrives (messages.take k) (received fromStr (lines ⟨bytes, fault⟩)) ∧
      ∀ (difficulty : UInt32 → Value) (self : Session) (inputs : List (Str × PoolState))
        (traces : List (Prog.Trace Effect.Answer)),
        inputs.map Prod.fst = lines ⟨bytes, fault⟩ →
        Session.Converses fromStr difficulty self inputs traces →
          ∃ whole traces', whole <+: inputs ∧
            (whole.map Prod.fst = (messages.take k).map fun message => print message.toValue) ∧
            Session.Converses fromStr difficulty self whole traces' ∧
            (traces = traces' ∨ traces = traces' ++ [[]]) := by
  have htexts : ∀ text ∈ messages.map fun message => print message.toValue,
      Sendable fromStr text := by
    intro text htext
    obtain ⟨message, hmessage, rfl⟩ := List.mem_map.mp htext
    exact hsendable message hmessage
  obtain ⟨k, hwhole, hreceived, hsession⟩ := readers_cut htexts hbytes fault
  rw [← List.map_take] at hreceived hsession
  refine ⟨k, fun j hj hbytes' => hwhole j ?_ ?_, ?_, hsession⟩
  · rwa [List.length_map]
  · rwa [← List.map_take]
  · rw [hreceived]
    exact received_messages fun message hmessage => hreads message (List.mem_of_mem_take hmessage)

/-- The text of the first request of a miner. -/
def subscribeText : Str := System.textOf (Incoming.request subscribeRequest).toValue

/-- A library that reads this text. -/
def readSubscribe (text : Str) : Option Value :=
  if text = subscribeText then some (Incoming.request subscribeRequest).toValue else none

/-- What the first session of a pool reads and does, of that request and of the beginning of
another one. -/
theorem converses_subscribeText : Session.Converses readSubscribe (fun _ => .null) (.new 1 0)
    [(subscribeText, .new), (['\x7b'], .new)] [Session.subscribeTrace (some 1), []] :=
  .reads (.op (.op (.ret _))) (Session.consistent_subscribeTrace _)
    (.reads (.ret _) (by constructor <;> simp) (.ends _))

/-- The request twice, the second one cut behind its first character. -/
theorem readers_faithful_sample :
    ∃ k, 1 ≤ k ∧ List.Forall₂ Arrives
        ([.request subscribeRequest, .request subscribeRequest].take k)
        (received readSubscribe (lines ⟨lineBytes subscribeText ++ [123], none⟩)) ∧
      ∃ whole traces', whole <+: [(subscribeText, PoolState.new), (['\x7b'], .new)] ∧
        whole.map Prod.fst = ([Incoming.request subscribeRequest, .request subscribeRequest].take
          k).map (fun message => System.textOf message.toValue) ∧
        Session.Converses readSubscribe (fun _ => .null) (.new 1 0) whole traces' ∧
        ([Session.subscribeTrace (some 1), []] = traces' ∨
          [Session.subscribeTrace (some 1), []] = traces' ++ [[]]) := by
  have hsendable : ∀ message ∈ [Incoming.request subscribeRequest, .request subscribeRequest],
      Sendable readSubscribe (System.textOf message.toValue) := by
    intro message hmessage
    obtain rfl : message = .request subscribeRequest := by simpa using hmessage
    exact ⟨⟨by decide, by decide⟩, fun part _ hne => if_neg hne⟩
  have hreads : ∀ message ∈ [Incoming.request subscribeRequest, .request subscribeRequest],
      System.Reads readSubscribe System.textOf message := by
    intro message hmessage
    obtain rfl : message = .request subscribeRequest := by simpa using hmessage
    exact ⟨by decide, _, if_pos rfl, fun _ => Or.inr rfl⟩
  have hbytes : lineBytes subscribeText ++ [123] <+:
      ([Incoming.request subscribeRequest, .request subscribeRequest].map fun message =>
        System.textOf message.toValue).flatMap lineBytes := by decide
  have hlines : [subscribeText, ['\x7b']] = lines ⟨lineBytes subscribeText ++ [123], none⟩ := by
    have hframed : Framed subscribeText := ⟨by decide, by decide⟩
    have hread : readLine ⟨[123], none⟩ = .ok (['\x7b'], ⟨[], none⟩) := rfl
    rw [lineBytes, List.append_assoc]
    refine ((lines_cons hframed [123] none).trans ?_).symm
    rw [lines_of_readLine hread, if_neg (by simp), lines_nil]
    rfl
  obtain ⟨k, hwhole, hreceived, hsession⟩ := readers_faithful hsendable hreads hbytes none
  exact ⟨k, hwhole 1 (by decide) (by decide), hreceived,
    hsession _ _ _ _ hlines converses_subscribeText⟩

end Framing

end SoloMiner
