import AsmLint.Collection.Dict

/-! Message templates. A group in braces is replaced by the value of its key; values are put in as
they are and never looked at again. -/

namespace AsmLint

/-- A group with an unknown key stays as it is written, and so does an opening brace that nothing
closes, together with all that follows it. -/
def fillTemplate (values : Dict String) (template : List Char) : List Char :=
  match template with
  | [] => []
  | c :: rest =>
    if c = '\x7b' then
      let key := rest.takeWhile (· != '\x7d')
      let tail := rest.dropWhile (· != '\x7d')
      if tail.isEmpty then c :: rest
      else
        let filled := match values.get? (String.ofList key) with
          | some value => value.toList
          | none => c :: key ++ ['\x7d']
        filled ++ fillTemplate values tail.tail
    else c :: fillTemplate values rest
termination_by template.length
decreasing_by
  · have shorter := (List.dropWhile_sublist (l := rest) (p := (· != '\x7d'))).length_le
    simp only [List.length_cons, List.length_tail]
    omega
  · simp

end AsmLint
