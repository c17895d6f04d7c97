import AsmLint.Command.Run
import AsmLint.Proofs.JsonRecords

/-! Diagnostics are read back from their texts: from the compact one, and from the one with sorted
keys that stands in the printed report. Of the fields only the numbers of a place are bounded. -/

namespace AsmLint

open Json

theorem asString?_sortKeys (json : Json) : json.sortKeys.asString? = json.asString? := by
  cases json <;> rfl

theorem asWord?_sortKeys (json : Json) : json.sortKeys.asWord? = json.asWord? := by
  cases json <;> rfl

theorem asWord?_ofNat {n : Nat} (small : n < UInt64.size) : asWord? (.ofNat n) = some n :=
  if_pos small

theorem Severity.ofJson?_toJson (severity : Severity) :
    ofJson? severity.toJson = some severity := by
  cases severity <;> rfl

namespace Span

def Fits (span : Span) : Prop :=
  span.line < UInt64.size ∧ span.start < UInt64.size ∧ span.stop < UInt64.size

theorem ofJson?_object {members : List (String × Json)} {span : Span}
    (distinct : (members.map Prod.fst).Nodup)
    (line : Gives members "line" asWord? (some span.line))
    (start : Gives members "start" asWord? (some span.start))
    (stop : Gives members "end" asWord? (some span.stop)) :
    ofJson? (.object members) = some span := by
  obtain ⟨lineJson, lineGiven, lineRead⟩ := line.exists_member? distinct
  obtain ⟨startJson, startGiven, startRead⟩ := start.exists_member? distinct
  obtain ⟨stopJson, stopGiven, stopRead⟩ := stop.exists_member? distinct
  rw [ofJson?, if_pos (distinctFields_eq_true distinct _), lineGiven, startGiven, stopGiven]
  simp only [Option.bind_eq_bind, Option.bind_some, ofParts?, lineRead, startRead, stopRead]
  rfl

theorem ofJson?_toJson {span : Span} (fits : span.Fits) :
    ofJson? span.toJson = some span ∧ ofJson? span.toJson.sortKeys = some span := by
  let members : List (String × Json) :=
    [("line", .ofNat span.line), ("start", .ofNat span.start), ("end", .ofNat span.stop)]
  have distinct : (members.map Prod.fst).Nodup := by
    change ["line", "start", "end"].Nodup
    decide
  have line : Gives members "line" asWord? (some span.line) :=
    ⟨_, by simp [members], asWord?_ofNat fits.1⟩
  have start : Gives members "start" asWord? (some span.start) :=
    ⟨_, by simp [members], asWord?_ofNat fits.2.1⟩
  have stop : Gives members "end" asWord? (some span.stop) :=
    ⟨_, by simp [members], asWord?_ofNat fits.2.2⟩
  have kept (field : String) (json : Json) (_ : (field, json) ∈ members) := asWord?_sortKeys json
  exact ⟨ofJson?_object distinct line start stop,
    ofJson?_object ((keys_sortMembers_perm members).nodup_iff.2 distinct)
      (line.sortMembers (kept _)) (start.sortMembers (kept _)) (stop.sortMembers (kept _))⟩

theorem plain_toJson (span : Span) : Plain span.toJson := by
  refine .object fun member listed => ?_
  simp only [List.mem_cons, List.not_mem_nil, or_false] at listed
  rcases listed with rfl | rfl | rfl <;> exact .int _

end Span

namespace Diagnostic

/-- The members are those of the diagnostic, in some order. -/
structure WrittenAs (diagnostic : Diagnostic) (members : List (String × Json)) : Prop where
  distinct : (members.map Prod.fst).Nodup
  id : Gives members "id" asString? (some diagnostic.id)
  severity : Gives members "severity" Severity.ofJson? (some diagnostic.severity)
  message : Gives members "message" asString? (some diagnostic.message)
  span : Gives members "span" Span.ofJson? diagnostic.span
  source : Gives members "source" asString? (some diagnostic.source)
  context : Gives members "context" (asDict? asString?) diagnostic.context

variable {diagnostic : Diagnostic}

theorem WrittenAs.ofJson? {members : List (String × Json)}
    (written : diagnostic.WrittenAs members) :
    Diagnostic.ofJson? (.object members) = some diagnostic := by
  have distinct := written.distinct
  obtain ⟨idJson, idGiven, idRead⟩ := written.id.exists_member? distinct
  obtain ⟨severityJson, severityGiven, severityRead⟩ := written.severity.exists_member? distinct
  obtain ⟨messageJson, messageGiven, messageRead⟩ := written.message.exists_member? distinct
  obtain ⟨sourceJson, sourceGiven, sourceRead⟩ := written.source.exists_member? distinct
  rw [Diagnostic.ofJson?, if_pos (distinctFields_eq_true distinct _), idGiven, severityGiven,
    messageGiven, sourceGiven]
  simp only [Option.bind_eq_bind, Option.bind_some, ofParts?, idRead, severityRead, messageRead,
    sourceRead, written.span.asOption? distinct rfl, written.context.asOption? distinct rfl]
  rfl

def members (diagnostic : Diagnostic) : List (String × Json) :=
  [("id", .string diagnostic.id),
    ("severity", diagnostic.severity.toJson),
    ("message", .string diagnostic.message)] ++
  optionalMember "span" Span.toJson diagnostic.span ++
  [("source", .string diagnostic.source)] ++
  optionalMember "context" (Dict.toJson Json.string) diagnostic.context

theorem toJson_eq (diagnostic : Diagnostic) : diagnostic.toJson = .object diagnostic.members := rfl

section Optional

variable {α : Type} {field : String} {encode : α → Json} {value : Option α}

theorem mem_optionalMember {member : String × Json} :
    member ∈ optionalMember field encode value ↔
      ∃ content, value = some content ∧ member = (field, encode content) := by
  cases value <;> simp [optionalMember]

theorem keys_optionalMember :
    ((optionalMember field encode value).map Prod.fst).Sublist [field] := by
  cases value with
  | none => exact List.nil_sublist _
  | some content => exact .refl _

theorem gives_optional {members : List (String × Json)} {decode : Json → Option α}
    (only : ∀ json, (field, json) ∈ members ↔
      ∃ content, value = some content ∧ json = encode content)
    (decoded : ∀ content, value = some content → decode (encode content) = some content) :
    Gives members field decode value := by
  cases value with
  | none =>
    intro listed
    obtain ⟨⟨_, json⟩, given, rfl⟩ := List.mem_map.1 listed
    simpa using (only json).1 given
  | some content => exact ⟨encode content, (only _).2 ⟨content, rfl, rfl⟩, decoded content rfl⟩

end Optional

theorem nodup_keys (diagnostic : Diagnostic) : (diagnostic.members.map Prod.fst).Nodup := by
  have listed : (diagnostic.members.map Prod.fst).Sublist fields := by
    rw [members, List.map_append, List.map_append, List.map_append]
    exact ((List.Sublist.append (.refl _) keys_optionalMember).append (.refl _)).append
      keys_optionalMember
  exact List.Nodup.sublist listed (by decide)

theorem span_mem_iff {json : Json} :
    ("span", json) ∈ diagnostic.members ↔
      ∃ span, diagnostic.span = some span ∧ json = span.toJson := by
  simp [members, mem_optionalMember]

theorem context_mem_iff {json : Json} :
    ("context", json) ∈ diagnostic.members ↔
      ∃ context, diagnostic.context = some context ∧ json = context.toJson .string := by
  simp [members, mem_optionalMember]

theorem context_ofJson? (context : Dict String) :
    asDict? asString? (context.toJson .string) = some context :=
  asDict?_toJson fun _ _ => rfl

theorem writtenAs_members (fits : ∀ span ∈ diagnostic.span, span.Fits) :
    diagnostic.WrittenAs diagnostic.members where
  distinct := nodup_keys diagnostic
  id := ⟨.string diagnostic.id, by simp [members], rfl⟩
  severity := ⟨diagnostic.severity.toJson, by simp [members], Severity.ofJson?_toJson _⟩
  message := ⟨.string diagnostic.message, by simp [members], rfl⟩
  span := gives_optional (fun _ => span_mem_iff) fun span present =>
    (Span.ofJson?_toJson (fits span present)).1
  source := ⟨.string diagnostic.source, by simp [members], rfl⟩
  context := gives_optional (fun _ => context_mem_iff) fun context _ => context_ofJson? context

theorem WrittenAs.sortMembers (written : diagnostic.WrittenAs diagnostic.members)
    (fits : ∀ span ∈ diagnostic.span, span.Fits) :
    diagnostic.WrittenAs (sortMembers diagnostic.members) where
  distinct := (keys_sortMembers_perm _).nodup_iff.2 written.distinct
  id := written.id.sortMembers fun json _ => asString?_sortKeys json
  severity := written.severity.sortMembers fun json given => by
    have same : json = diagnostic.severity.toJson := by
      simpa [members, mem_optionalMember] using given
    rw [same]
    rfl
  message := written.message.sortMembers fun json _ => asString?_sortKeys json
  span := written.span.sortMembers fun json given => by
    obtain ⟨span, present, rfl⟩ := span_mem_iff.1 given
    have ⟨compact, sorted⟩ := Span.ofJson?_toJson (fits span present)
    rw [sorted, compact]
  source := written.source.sortMembers fun json _ => asString?_sortKeys json
  context := written.context.sortMembers fun json given => by
    obtain ⟨context, -, rfl⟩ := context_mem_iff.1 given
    rw [sortKeys_toJson context fun _ _ => rfl]

theorem plain_toJson (diagnostic : Diagnostic) : Plain diagnostic.toJson := by
  refine .object fun member listed => ?_
  simp only [mem_optionalMember, List.mem_append, List.mem_cons, List.not_mem_nil, or_false]
    at listed
  rcases listed with (((rfl | rfl | rfl) | ⟨span, -, rfl⟩) | rfl) | ⟨context, -, rfl⟩
  · exact .string _
  · exact .string _
  · exact .string _
  · exact span.plain_toJson
  · exact .string _
  · exact .dict fun _ _ => .string _

end Diagnostic

section Printed

variable {layout : Layout} {depth : Nat} {value : Json}

theorem write_infix_writeItems {items : List Json} (listed : value ∈ items) :
    write layout (depth + 1) value <:+: writeItems layout depth items := by
  induction items with
  | nil => simp at listed
  | cons item rest ih =>
    rw [writeItems]
    rcases List.mem_cons.1 listed with rfl | later
    · exact ⟨_, _, rfl⟩
    · exact (ih later).trans (List.suffix_append _ _).isInfix

theorem write_infix_list {items : List Json} (listed : value ∈ items) :
    write layout (depth + 1) value <:+: write layout depth (.list items) := by
  cases items with
  | nil => simp at listed
  | cons item rest =>
    rw [write]
    rcases List.mem_cons.1 listed with rfl | later
    · exact ⟨_, _, rfl⟩
    · exact (write_infix_writeItems later).trans (List.suffix_append _ _).isInfix

theorem write_infix_writeMembers {members : List (String × Json)} {key : String}
    (listed : (key, value) ∈ members) :
    write layout (depth + 1) value <:+: writeMembers layout depth members := by
  induction members with
  | nil => simp at listed
  | cons member rest ih =>
    rw [writeMembers]
    rcases List.mem_cons.1 listed with rfl | later
    · exact ⟨_, _, rfl⟩
    · exact (ih later).trans (List.suffix_append _ _).isInfix

theorem write_infix_object {members : List (String × Json)} {key : String}
    (listed : (key, value) ∈ members) :
    write layout (depth + 1) value <:+: write layout depth (.object members) := by
  cases members with
  | nil => simp at listed
  | cons member rest =>
    rw [write]
    rcases List.mem_cons.1 listed with rfl | later
    · exact ⟨_, _, rfl⟩
    · exact (write_infix_writeMembers later).trans (List.suffix_append _ _).isInfix

theorem finding_infix_output {report : Report} {diagnostic : Diagnostic}
    (listed : diagnostic ∈ report.issues) (status : Nat) :
    write .pretty 2 diagnostic.toJson.sortKeys <:+:
      (Outcome.sortedJson status report.toJson).output.toList := by
  have inList : diagnostic.toJson.sortKeys ∈
      (report.issues.map Diagnostic.toJson).map sortKeys :=
    List.mem_map_of_mem (List.mem_map_of_mem listed)
  have inReport : ("issues", .list ((report.issues.map Diagnostic.toJson).map sortKeys)) ∈
      sortMembers [("ok", .bool report.ok),
        ("issues", .list (report.issues.map Diagnostic.toJson))] :=
    mem_sortMembers_iff.2 ⟨.list (report.issues.map Diagnostic.toJson), by simp,
      by rw [Json.sortKeys, sortItems_eq_map]⟩
  have whole := (@write_infix_list .pretty 1 _ _ inList).trans (write_infix_object inReport)
  rw [Outcome.sortedJson, Outcome.json, Outcome.printed, pretty, String.toList_append,
    String.toList_ofList, Report.toJson, Json.sortKeys]
  exact whole.trans (List.prefix_append _ _).isInfix

end Printed

/-- A diagnostic is read back from its compact text and, at any indentation, from the text with
sorted keys; the latter is what a printed report holds for it. -/
theorem Diagnostic.text_reads_back (diagnostic : Diagnostic)
    (fits : ∀ span ∈ diagnostic.span, span.Fits) :
    read? diagnostic.write = some diagnostic ∧
      (∀ depth, read? (String.ofList (diagnostic.toJson.sortKeys.write .pretty depth)) =
        some diagnostic) ∧
      ∀ (report : Report) (status : Nat), diagnostic ∈ report.issues →
        diagnostic.toJson.sortKeys.write .pretty 2 <:+:
          (Outcome.sortedJson status report.toJson).output.toList := by
  have written := writtenAs_members fits
  have plain := diagnostic.plain_toJson
  refine ⟨?_, fun depth => ?_, fun report status listed => finding_infix_output listed status⟩
  · rw [read?, write, compact, read_write plain, Option.bind_some]
    exact written.ofJson?
  · rw [read?, read_write plain.sortKeys, Option.bind_some, toJson_eq, Json.sortKeys]
    exact (written.sortMembers fits).ofJson?

/-- A diagnostic with escapes in its texts, the largest line number and a span that runs
backwards. -/
theorem Diagnostic.escaped_text_reads_back :
    let diagnostic : Diagnostic := ⟨"\x22\\", .warn, "a\n\x01\x1f\x7fé😀",
      some ⟨UInt64.size - 1, 9, 3⟩, "", some (Dict.ofList [("\t", "/"), ("", "\x00")])⟩
    (∀ span ∈ diagnostic.span, span.Fits) ∧
      read? diagnostic.write = some diagnostic ∧
      read? (String.ofList (diagnostic.toJson.sortKeys.write .pretty 2)) = some diagnostic ∧
      diagnostic.toJson.sortKeys.write .pretty 2 <:+:
        (Outcome.sortedJson 0 (Report.toJson ⟨[diagnostic], .empty⟩)).output.toList := by
  intro diagnostic
  have fits : ∀ span ∈ diagnostic.span, span.Fits := by
    rintro span ⟨⟩
    exact ⟨by decide, by decide, by decide⟩
  have ⟨compact, sorted, printed⟩ := text_reads_back diagnostic fits
  exact ⟨fits, compact, sorted 2, printed ⟨[diagnostic], .empty⟩ 0 List.mem_cons_self⟩

end AsmLint
