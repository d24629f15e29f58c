import Mathlib.Order.Bounds.Defs
import ScriptTree.Parse.Stream
import ScriptTree.Proofs.Encoding
import ScriptTree.Proofs.Parsing

/-!
# Streaming is parsing of the whole text

However a script's bytes are cut into pieces, and however often a request has to be repeated, the
outcome is that of the text they encode. Bytes that encode no text are refused at the end of their
longest beginning that does.
-/

namespace ScriptTree

open Text

/-- The bytes that a request gives. -/
def Read.bytes : Read → List UInt8
  | data bytes => bytes
  | interrupted | failed _ => []

/-- Whether a request does its part: it gives some bytes, or has to be repeated. -/
def Read.Delivers : Read → Prop
  | data bytes => bytes ≠ []
  | interrupted => True
  | failed _ => False

namespace Stream

variable {config : Config}

/-- The first of two steps fails in a stream as it does by itself. -/
theorem lift_bind {α β : Type} (x : Except ParseError α) (f : α → Except ParseError β) :
    lift (x.bind f) = (lift x).bind fun a => lift (f a) := by
  cases x <;> rfl

/-- All bytes that requests give. -/
def bytesOf (reads : List Read) : List UInt8 :=
  reads.flatMap Read.bytes

theorem bytesOf_data (bytes : List UInt8) (reads : List Read) :
    bytesOf (.data bytes :: reads) = bytes ++ bytesOf reads := rfl

namespace Progress

variable {p : Progress} {bytes : List UInt8}

/-- What is pending between two requests holds no character. -/
def Waits (p : Progress) : Prop :=
  (Utf8.decode p.pending).chars = []

/-- The bytes pending are what is left over of them. -/
theorem Waits.rest_eq (h : p.Waits) : (Utf8.decode p.pending).rest = p.pending := by
  have hbytes := Utf8.encode_append_rest p.pending
  rwa [h, Utf8.encode_nil, List.nil_append] at hbytes

/-- The number of bytes that are read as characters once these bytes were decoded as well. -/
def consumedAfter (p : Progress) (bytes : List UInt8) : Nat :=
  p.consumed + (p.pending.length + bytes.length - (Utf8.decode (p.pending ++ bytes)).rest.length)

/-- The progress that a piece makes with the automaton that took its characters. -/
def after (p : Progress) (bytes : List UInt8) (automaton : Automaton) : Progress where
  automaton := automaton
  pending := (Utf8.decode (p.pending ++ bytes)).rest
  consumed := p.consumedAfter bytes

/-- What malformed bytes leave unread, whatever follows them leaves unread. -/
theorem consumedAfter_of_malformed (more : List UInt8)
    (h : (Utf8.decode (p.pending ++ bytes)).ending = .malformed) :
    p.consumedAfter (bytes ++ more) = p.consumedAfter bytes := by
  unfold consumedAfter
  rw [← List.append_assoc, Utf8.decode_append_of_malformed more h]
  simp only [List.length_append]
  omega

/-- Bytes are counted alike in one piece and in two. -/
theorem consumedAfter_after (automaton : Automaton) (more : List UInt8) :
    (p.after bytes automaton).consumedAfter more = p.consumedAfter (bytes ++ more) := by
  have hpiece := Utf8.length_rest_le (p.pending ++ bytes)
  have hmore := Utf8.length_rest_le ((Utf8.decode (p.pending ++ bytes)).rest ++ more)
  unfold consumedAfter after consumedAfter
  rw [← List.append_assoc, Utf8.decode_append (p.pending ++ bytes)]
  simp only [List.length_append] at hpiece hmore ⊢
  omega

/-- After a piece, what is pending holds no character. -/
theorem waits_after (automaton : Automaton) : (p.after bytes automaton).Waits := by
  rw [Waits, after, Utf8.decode_rest]

/-- A malformed piece is refused at the first byte that is not read. -/
theorem take_of_malformed (h : (Utf8.decode (p.pending ++ bytes)).ending = .malformed) :
    p.take config bytes = .error (.invalidUtf8 (p.consumedAfter bytes)) := by
  unfold take
  rw [if_pos h]
  rfl

/-- Any other piece brings the automaton as far as its characters do. -/
theorem take_of_ne_malformed (h : (Utf8.decode (p.pending ++ bytes)).ending ≠ .malformed) :
    p.take config bytes =
      (lift (p.automaton.feed config (Utf8.decode (p.pending ++ bytes)).chars)).map
        (p.after bytes) := by
  unfold take
  rw [if_neg h]
  cases p.automaton.feed config (Utf8.decode (p.pending ++ bytes)).chars <;> rfl

end Progress

variable {p : Progress} {reads : List Read}

/-- A request for bytes that are not malformed makes progress as far as they go. -/
theorem drain_data {bytes : List UInt8} (hbytes : bytes ≠ [])
    (h : (Utf8.decode (p.pending ++ bytes)).ending ≠ .malformed) :
    drain config p (.data bytes :: reads) =
      (lift (p.automaton.feed config (Utf8.decode (p.pending ++ bytes)).chars)).bind fun a =>
        drain config (p.after bytes a) reads := by
  obtain ⟨b, more, rfl⟩ := List.exists_cons_of_ne_nil hbytes
  rw [drain, Progress.take_of_ne_malformed h]
  cases p.automaton.feed config (Utf8.decode (p.pending ++ b :: more)).chars <;> rfl

/-- A request for malformed bytes is the last. -/
theorem drain_malformed {bytes : List UInt8}
    (h : (Utf8.decode (p.pending ++ bytes)).ending = .malformed) (hbytes : bytes ≠ []) :
    drain config p (.data bytes :: reads) =
      .error (.invalidUtf8 (p.consumedAfter bytes)) := by
  obtain ⟨b, more, rfl⟩ := List.exists_cons_of_ne_nil hbytes
  rw [drain, Progress.take_of_malformed h]
  rfl

/-- Requests whose bytes are all characters bring the automaton as far as the characters do. -/
theorem drain_of_complete (hreads : ∀ r ∈ reads, r.Delivers) (hp : p.Waits)
    (h : (Utf8.decode (p.pending ++ bytesOf reads)).ending = .complete) :
    drain config p reads =
      lift (p.automaton.feed config (Utf8.decode (p.pending ++ bytesOf reads)).chars) := by
  induction reads generalizing p with
  | nil =>
    rw [bytesOf, List.flatMap_nil, List.append_nil] at h ⊢
    have hpending : p.pending = [] := by
      rw [← hp.rest_eq, Utf8.ending_eq_complete_iff.1 h]
    rw [hp, drain, hpending]
    · rfl
    all_goals simp
  | cons r reads ih =>
    obtain ⟨hr, hmore⟩ := List.forall_mem_cons.1 hreads
    cases r with
    | interrupted => exact ih hmore hp h
    | failed message => exact hr.elim
    | data bytes =>
      rw [bytesOf_data, ← List.append_assoc] at h ⊢
      have hvalid : (Utf8.decode (p.pending ++ bytes)).ending ≠ .malformed := by
        intro hmalformed
        rw [Utf8.decode_append_of_malformed _ hmalformed] at h
        cases h
      rw [Utf8.decode_append (p.pending ++ bytes)] at h ⊢
      rw [drain_data hr hvalid, Automaton.feed_append, lift_bind]
      congr 1
      funext a
      exact ih hmore (Progress.waits_after a) h

/-- Where nothing stops the automaton, requests whose bytes are not all characters end with the
first byte that is not read. -/
theorem drain_of_ne_complete (hreads : ∀ r ∈ reads, r.Delivers) (hp : p.Waits)
    (hfeeds : ∀ cs, ∃ a, p.automaton.feed config cs = .ok a)
    (h : (Utf8.decode (p.pending ++ bytesOf reads)).ending ≠ .complete) :
    drain config p reads = .error (.invalidUtf8 (p.consumedAfter (bytesOf reads))) := by
  induction reads generalizing p with
  | nil =>
    rw [bytesOf, List.flatMap_nil] at h ⊢
    rw [List.append_nil] at h
    have hpending : p.pending ≠ [] := by
      intro hnil
      rw [hnil] at h
      exact h (by simp)
    have hconsumed : p.consumedAfter [] = p.consumed := by
      simp [Progress.consumedAfter, hp.rest_eq]
    rw [hconsumed, drain, if_neg (by simpa using hpending)]
    all_goals simp
  | cons r reads ih =>
    obtain ⟨hr, hmore⟩ := List.forall_mem_cons.1 hreads
    cases r with
    | interrupted => exact ih hmore hp hfeeds h
    | failed message => exact hr.elim
    | data bytes =>
      rw [bytesOf_data] at h ⊢
      rw [← List.append_assoc] at h
      by_cases hvalid : (Utf8.decode (p.pending ++ bytes)).ending = .malformed
      · rw [drain_malformed hvalid hr, Progress.consumedAfter_of_malformed _ hvalid]
      · obtain ⟨a, ha⟩ := hfeeds (Utf8.decode (p.pending ++ bytes)).chars
        have hafter : ∀ cs, ∃ b, a.feed config cs = .ok b := by
          intro cs
          obtain ⟨b, hb⟩ := hfeeds ((Utf8.decode (p.pending ++ bytes)).chars ++ cs)
          rw [Automaton.feed_append, ha] at hb
          exact ⟨b, hb⟩
        rw [Utf8.decode_append (p.pending ++ bytes)] at h
        rw [drain_data hr hvalid, ha, ← Progress.consumedAfter_after a]
        exact ih hmore (Progress.waits_after a) hafter h

/-- Before any request nothing is pending. -/
theorem waits_start (automaton : Automaton) : Progress.Waits { automaton } := by
  simp [Progress.Waits]

/-- Without limits on depth an automaton starts, and takes any characters. -/
theorem start_feeds (hstack : config.maxReadingStack = none)
    (hfolding : config.maxTraceFrames = none) (entrance : Entrance) :
    ∃ a, Automaton.start config entrance.reader = .ok a ∧
      ∀ cs, ∃ b, a.feed config cs = .ok b := by
  have hstack : config.maxReadingStack.isSome → False := by simp [hstack]
  have hfolding : config.maxTraceFrames.isSome → False := by simp [hfolding]
  obtain ⟨hrests, -, hempty⟩ := entrance.reader_rests
  obtain ⟨a, ha, hreads⟩ := (Automaton.start_meets hstack hrests hempty).yields
  refine ⟨a, ha, fun cs => ?_⟩
  obtain ⟨b, hb, -⟩ := (Automaton.feed_meets hstack hfolding cs hreads).yields
  exact ⟨b, hb⟩

/-- A stream of the bytes of a text is parsed as the text. -/
theorem parse_of_bytesOf_eq {text : String} (hreads : ∀ r ∈ reads, r.Delivers)
    (hbytes : text.toUTF8.data.toList = bytesOf reads) :
    parse config reads = lift (ScriptTree.parse .file config text) := by
  have hdecode : Utf8.decode ([] ++ bytesOf reads) = ⟨text.toList, [], .complete⟩ := by
    have hdecode := Utf8.decode_encode text.toList []
    rwa [List.append_nil, ← Utf8.toUTF8_eq_encode, hbytes, Utf8.decode_nil,
      List.append_nil] at hdecode
  have hdrain (a : Automaton) :
      drain config { automaton := a } reads = lift (a.feed config text.toList) := by
    rw [drain_of_complete hreads (waits_start a) (by rw [hdecode]), hdecode]
  unfold parse ScriptTree.parse Automaton.run
  cases Automaton.start config Entrance.file.reader with
  | error e => rfl
  | ok a =>
    change (drain config { automaton := a } reads).bind _ =
      lift (((a.feed config text.toList).bind _).bind _)
    rw [hdrain]
    cases a.feed config text.toList with
    | error e => rfl
    | ok a =>
      change (lift (a.finish config)).bind _ = lift ((a.finish config).bind _)
      cases a.finish config with
      | error e => rfl
      | ok result =>
        change (lift (ParseError.ofTree (Entrance.file.rootOf result.1))).bind _ =
          lift ((ParseError.ofTree (Entrance.file.rootOf result.1)).bind _)
        cases ParseError.ofTree (Entrance.file.rootOf result.1) <;> rfl

/-- A stream of bytes that are not a text is refused. -/
theorem parse_of_malformed (hstack : config.maxReadingStack = none)
    (hfolding : config.maxTraceFrames = none) (hreads : ∀ r ∈ reads, r.Delivers)
    (hbytes : (Utf8.decode (bytesOf reads)).ending ≠ .complete) :
    parse config reads = .error (.invalidUtf8
      ((bytesOf reads).length - (Utf8.decode (bytesOf reads)).rest.length)) := by
  obtain ⟨a, ha, hfeeds⟩ := start_feeds hstack hfolding .file
  unfold parse
  rw [ha]
  have hdrain := drain_of_ne_complete hreads (waits_start a) hfeeds hbytes
  change (drain config { automaton := a } reads).bind _ = _
  rw [hdrain, Progress.consumedAfter]
  simp [Except.bind]

/-- However the bytes of a script are cut and however often a request is repeated: the bytes of a
text give what the text gives, and without limits on depth any other bytes are refused with the
length of their longest beginning that is the bytes of a text. -/
theorem parse_eq_parse_text (config : Config) {reads : List Read}
    (hreads : ∀ r ∈ reads, r.Delivers) :
    (∀ text : String, text.toUTF8.data.toList = bytesOf reads →
      parse config reads = lift (ScriptTree.parse .file config text)) ∧
    ((¬ ∃ text : String, text.toUTF8.data.toList = bytesOf reads) →
      config.maxReadingStack = none → config.maxTraceFrames = none →
      ∃ n, parse config reads = .error (.invalidUtf8 n) ∧
        IsGreatest {k | k ≤ (bytesOf reads).length ∧
          ∃ text : String, text.toUTF8.data.toList = (bytesOf reads).take k} n) := by
  refine ⟨fun text hbytes => parse_of_bytesOf_eq hreads hbytes, fun hnone hstack hfolding => ?_⟩
  have hending : (Utf8.decode (bytesOf reads)).ending ≠ .complete := by
    intro hcomplete
    obtain ⟨cs, hcs⟩ := Utf8.ending_eq_complete_iff_exists.1 hcomplete
    exact hnone ⟨String.ofList cs, by rw [Utf8.toUTF8_eq_encode, String.toList_ofList, hcs]⟩
  refine ⟨_, parse_of_malformed hstack hfolding hreads hending, ⟨Nat.sub_le _ _,
    String.ofList (Utf8.decode (bytesOf reads)).chars, ?_⟩, ?_⟩
  · rw [Utf8.toUTF8_eq_encode, String.toList_ofList, Utf8.take_eq_encode]
  · rintro k ⟨hk, text, htext⟩
    rw [Utf8.toUTF8_eq_encode] at htext
    exact Utf8.length_le_of_take_eq_encode hk htext

/-- A character that is cut between two requests is read, and one that is never completed is
refused. -/
theorem parse_cut_character :
    parse {} [.data [0xc3], .interrupted, .data [0xa9]] =
        lift (ScriptTree.parse .file {} "é") ∧
      ∃ n, parse .unlimited [.data [0x61], .data [0xc3]] = .error (.invalidUtf8 n) ∧
        IsGreatest {k | k ≤ 2 ∧
          ∃ text : String, text.toUTF8.data.toList = [0x61, 0xc3].take k} n := by
  constructor
  · exact (parse_eq_parse_text {} (by simp [Read.Delivers])).1 "é" (by decide)
  · refine (parse_eq_parse_text .unlimited (by simp [Read.Delivers])).2 ?_ rfl rfl
    rintro ⟨text, htext⟩
    rw [Utf8.toUTF8_eq_encode] at htext
    have hcomplete := Utf8.ending_eq_complete_iff_exists.2 ⟨_, htext⟩
    revert hcomplete
    simp [bytesOf, Read.bytes, Utf8.decode, Utf8.lead?, Utf8.Decoded.push]

end Stream

end ScriptTree
