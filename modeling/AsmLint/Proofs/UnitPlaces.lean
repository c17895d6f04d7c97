import AsmLint.Proofs.ByteRules

/-! Where the units of a rule stand in its text. A blank separates unless it stands after a `%[`
whose list is not closed in between, and the units are the longest stretches without such a blank.
All is said of byte positions: nothing but blanks is left out, and an option list is in one unit as
a whole. A rule without a unit is blank, and each unit after the first that does not only separate
gives one slot. -/

namespace AsmLint

section Options

def BlankAt (text : List Char) (position : Nat) : Prop :=
  ∃ c, text[position]? = some c ∧ isBlank c = true

def Unclosed (text : List Char) (start position : Nat) : Prop :=
  ∀ between, start ≤ between → between < position → text[between]? ≠ some ']'

/-- The `%[` at `sign` stands before the position, and nothing closes its list before it. -/
structure OptionsReach (text : List Char) (sign position : Nat) : Prop where
  later : sign < position
  percent : text[sign]? = some '%'
  bracket : text[sign + 1]? = some '['
  unclosed : Unclosed text sign position

def SeparatesAt (text : List Char) (position : Nat) : Prop :=
  BlankAt text position ∧ ∀ sign, ¬ OptionsReach text sign position

/-- The position is in an option list of the text, or in one that was open before the text. -/
def InOptions (inOptions : Bool) (text : List Char) (position : Nat) : Prop :=
  (inOptions = true ∧ Unclosed text 0 position) ∨ ∃ sign, OptionsReach text sign position

variable {text front back rest : List Char} {c : Char} {sign position : Nat} {inOptions : Bool}

theorem OptionsReach.mono (reach : OptionsReach text sign position) {nearer : Nat}
    (later : sign < nearer) (within : nearer ≤ position) : OptionsReach text sign nearer :=
  ⟨later, reach.percent, reach.bracket, fun between start stop =>
    reach.unclosed between start (Nat.lt_of_lt_of_le stop within)⟩

theorem getElem?_append_add (front back : List Char) (index : Nat) :
    (front ++ back)[front.length + index]? = back[index]? := by
  rw [List.getElem?_append_right (by omega), Nat.add_sub_cancel_left]

theorem blankAt_cons_zero : BlankAt (c :: rest) 0 ↔ isBlank c = true := by
  simp [BlankAt]

theorem blankAt_cons_succ : BlankAt (c :: rest) (position + 1) ↔ BlankAt rest position := by
  rw [BlankAt, List.getElem?_cons_succ]
  rfl

theorem blankAt_append :
    BlankAt (front ++ back) (front.length + position) ↔ BlankAt back position := by
  rw [BlankAt, getElem?_append_add]
  rfl

theorem BlankAt.not_percent (blank : BlankAt text position) : text[position]? ≠ some '%' := by
  obtain ⟨c, here, isBlank⟩ := blank
  rw [here, ne_eq, Option.some.injEq]
  rintro rfl
  revert isBlank
  decide

theorem unclosed_cons :
    Unclosed (c :: rest) 0 (position + 1) ↔ c ≠ ']' ∧ Unclosed rest 0 position := by
  constructor
  · intro unclosed
    refine ⟨?_, fun between _ stop => ?_⟩
    · simpa using unclosed 0 (Nat.zero_le 0) (Nat.zero_lt_succ position)
    · simpa using unclosed (between + 1) (Nat.zero_le _) (Nat.succ_lt_succ stop)
  · rintro ⟨other, unclosed⟩ between - stop
    cases between with
    | zero => simpa using other
    | succ between => simpa using unclosed between (Nat.zero_le _) (Nat.lt_of_succ_lt_succ stop)

theorem optionsReach_append :
    OptionsReach (front ++ back) (front.length + sign) (front.length + position) ↔
      OptionsReach back sign position := by
  constructor
  · rintro ⟨later, percent, bracket, unclosed⟩
    rw [getElem?_append_add] at percent
    rw [Nat.add_assoc, getElem?_append_add] at bracket
    refine ⟨by omega, percent, bracket, fun between start stop => ?_⟩
    rw [← getElem?_append_add front]
    exact unclosed (front.length + between) (by omega) (by omega)
  · rintro ⟨later, percent, bracket, unclosed⟩
    refine ⟨by omega, ?_, ?_, fun between start stop => ?_⟩
    · rw [getElem?_append_add, percent]
    · rw [Nat.add_assoc, getElem?_append_add, bracket]
    · obtain ⟨index, rfl⟩ := Nat.exists_eq_add_of_le (Nat.le_trans (Nat.le_add_right _ _) start)
      rw [getElem?_append_add]
      exact unclosed index (by omega) (by omega)

theorem optionsReach_cons_zero :
    OptionsReach (c :: rest) 0 (position + 1) ↔
      opensOptions c rest = true ∧ Unclosed rest 0 position := by
  rw [opensOptions, Bool.and_eq_true, beq_iff_eq, beq_iff_eq, List.head?_eq_getElem?]
  constructor
  · rintro ⟨-, percent, bracket, unclosed⟩
    exact ⟨⟨by simpa using percent, by simpa using bracket⟩, (unclosed_cons.1 unclosed).2⟩
  · rintro ⟨⟨rfl, bracket⟩, unclosed⟩
    exact ⟨Nat.zero_lt_succ _, rfl, by simpa using bracket, unclosed_cons.2 ⟨by decide, unclosed⟩⟩

theorem inOptions_zero : InOptions inOptions text 0 ↔ inOptions = true := by
  constructor
  · rintro (⟨opened, -⟩ | ⟨sign, reach⟩)
    · exact opened
    · exact absurd reach.later (Nat.not_lt_zero sign)
  · exact fun opened => .inl ⟨opened, fun between _ stop => absurd stop (Nat.not_lt_zero between)⟩

theorem inOptions_false :
    InOptions false text position ↔ ∃ sign, OptionsReach text sign position := by
  simp [InOptions]

theorem inOptions_cons :
    InOptions inOptions (c :: rest) (position + 1) ↔
      InOptions (if inOptions then c != ']' else opensOptions c rest) rest position := by
  have signs : (∃ sign, OptionsReach (c :: rest) sign (position + 1)) ↔
      (opensOptions c rest = true ∧ Unclosed rest 0 position) ∨
        ∃ sign, OptionsReach rest sign position := by
    have later (sign : Nat) :
        OptionsReach (c :: rest) (sign + 1) (position + 1) ↔ OptionsReach rest sign position := by
      have shifted := @optionsReach_append [c] rest sign position
      rwa [List.singleton_append, List.length_singleton, Nat.add_comm 1, Nat.add_comm 1] at shifted
    rw [← Nat.or_exists_add_one, optionsReach_cons_zero]
    exact or_congr_right (exists_congr later)
  rw [InOptions, InOptions, signs, ← or_assoc]
  refine or_congr_left ?_
  cases inOptions with
  | false => simp
  | true =>
    -- A list within a list is closed with it, so a further `%[` changes nothing.
    have other (opens : opensOptions c rest = true) : c ≠ ']' := by
      rw [eq_of_beq (Bool.and_eq_true_iff.1 opens).1]
      decide
    rw [unclosed_cons, if_pos rfl, bne_iff_ne]
    tauto

theorem SeparatesAt.lt_sign {far : Nat} (separates : SeparatesAt text position)
    (reach : OptionsReach text sign far) (within : position ≤ far) : position < sign := by
  rcases Nat.lt_trichotomy sign position with before | rfl | after
  · exact absurd (reach.mono before within) (separates.2 sign)
  · exact absurd reach.percent separates.1.not_percent
  · exact after

theorem separatesAt_append (outside : ∀ sign, ¬ OptionsReach (front ++ back) sign front.length) :
    SeparatesAt (front ++ back) (front.length + position) ↔ SeparatesAt back position := by
  rw [SeparatesAt, SeparatesAt, blankAt_append]
  refine and_congr_right fun _ => ⟨fun apart sign reach => ?_, fun apart sign reach => ?_⟩
  · exact apart _ (optionsReach_append.2 reach)
  · by_cases before : sign < front.length
    · exact outside sign (reach.mono before (Nat.le_add_right _ _))
    · obtain ⟨index, rfl⟩ := Nat.exists_eq_add_of_le (Nat.le_of_not_lt before)
      exact apart index (optionsReach_append.1 reach)

end Options

section FirstUnit

variable {text unit rest : List Char} {c : Char} {position : Nat} {inOptions : Bool}

theorem firstUnit_stops (inOptions : Bool) (text : List Char) :
    (∀ position < (firstUnit inOptions text).1.length, BlankAt text position →
      InOptions inOptions text position) ∧
    ((firstUnit inOptions text).2 = [] ∨
      BlankAt text (firstUnit inOptions text).1.length ∧
        ¬ InOptions inOptions text (firstUnit inOptions text).1.length) := by
  fun_induction firstUnit inOptions text with
  | case1 => exact ⟨fun position short => absurd short (Nat.not_lt_zero position), .inl rfl⟩
  | case2 inOptions c rest separates =>
    obtain ⟨outside, blank⟩ := Bool.and_eq_true_iff.1 separates
    refine ⟨fun position short => absurd short (Nat.not_lt_zero position), .inr ?_⟩
    rw [List.length_nil, inOptions_zero]
    exact ⟨blankAt_cons_zero.2 blank, by simpa using outside⟩
  | case3 inOptions c rest joins next ih =>
    obtain ⟨inside, stops⟩ := ih
    rw [List.length_cons, blankAt_cons_succ, inOptions_cons]
    refine ⟨fun position short blank => ?_, stops⟩
    cases position with
    | zero =>
      rw [inOptions_zero]
      simpa [blankAt_cons_zero.1 blank] using joins
    | succ position =>
      rw [inOptions_cons]
      exact inside position (Nat.lt_of_succ_lt_succ short) (blankAt_cons_succ.1 blank)

theorem separatesAt_of_firstUnit (first : firstUnit false text = (unit, rest)) :
    (∀ position < unit.length, ¬ SeparatesAt text position) ∧
      (rest = [] ∨ SeparatesAt text unit.length) := by
  obtain ⟨inside, stops⟩ := firstUnit_stops false text
  rw [first] at inside stops
  rw [inOptions_false, not_exists] at stops
  refine ⟨fun position short separates => ?_, stops⟩
  obtain ⟨sign, reach⟩ := inOptions_false.1 (inside position short separates.1)
  exact separates.2 sign reach

/-- The units of a text one after the other: blanks are passed over, and a unit is taken up to where
it stops. -/
theorem units_induction {motive : List Char → Prop} (nil : motive [])
    (blank : ∀ c rest, isBlank c = true → motive rest → motive (c :: rest))
    (unit : ∀ c inner rest, isBlank c = false →
      firstUnit false (c :: (inner ++ rest)) = (c :: inner, rest) → motive rest →
      motive (c :: (inner ++ rest))) (text : List Char) : motive text := by
  induction size : text.length using Nat.strong_induction_on generalizing text with
  | _ n ih =>
    cases text with
    | nil => exact nil
    | cons c rest =>
      by_cases isBlank : AsmLint.isBlank c = true
      · exact blank c rest isBlank (ih rest.length (by simp [← size]) rest rfl)
      · obtain ⟨inner, starts⟩ := exists_firstUnit_cons isBlank rest
        have parts := firstUnit_append false (c :: rest)
        have first : firstUnit false (c :: rest) =
            (c :: inner, (firstUnit false (c :: rest)).2) := by rw [← starts]
        generalize (firstUnit false (c :: rest)).2 = tail at first parts
        rw [starts, List.cons_append] at parts
        obtain rfl := (List.cons.inj parts).2
        refine unit c inner tail (Bool.eq_false_iff.2 isBlank) first (ih tail.length ?_ tail rfl)
        simp only [← size, List.length_cons, List.length_append]
        omega

theorem units_of_firstUnit {inner : List Char} (other : isBlank c = false)
    (first : firstUnit false (c :: (inner ++ rest)) = (c :: inner, rest)) :
    units (c :: (inner ++ rest)) = (c :: inner) :: units rest := by
  rw [units_cons (Bool.eq_false_iff.1 other), first]

theorem units_eq_nil_iff : units text = [] ↔ AllIn isBlank text := by
  induction text using units_induction with
  | nil => exact iff_of_true rfl (allIn_nil isBlank)
  | blank c rest blank ih => rw [units_of_blank blank, ih, allIn_cons, and_iff_right blank]
  | unit c inner rest other first ih =>
    rw [units_of_firstUnit other first, allIn_cons, other]
    simp

end FirstUnit

section Bytes

theorem unchanged_of_wide {byte : Char} (wide : Bytes.isWide byte = true) (inOptions : Bool)
    (rest : List Char) :
    (if inOptions then byte != ']' else opensOptions byte rest) = inOptions := by
  have notPercent : (byte == '%') = false := (Bytes.isAscii_beq (by decide)).outside wide
  have notBracket : (byte == ']') = false := (Bytes.isAscii_beq (by decide)).outside wide
  cases inOptions <;> simp [opensOptions, notPercent, bne, notBracket]

theorem firstUnit_wide {wide : List Char} (allWide : AllIn Bytes.isWide wide) (inOptions : Bool)
    (bytes : List Char) :
    firstUnit inOptions (wide ++ bytes) =
      (wide ++ (firstUnit inOptions bytes).1, (firstUnit inOptions bytes).2) := by
  induction wide with
  | nil => rfl
  | cons byte wide ih =>
    obtain ⟨first, others⟩ := allIn_cons.1 allWide
    have notBlank : isBlank byte = false := Bytes.isAscii_isBlank.outside first
    rw [List.cons_append, firstUnit, if_neg (by simp [notBlank]), unchanged_of_wide first,
      ih others]
    rfl

theorem firstUnit_view (inOptions : Bool) (text : List Char) :
    firstUnit inOptions (Bytes.view text) =
      (Bytes.view (firstUnit inOptions text).1, Bytes.view (firstUnit inOptions text).2) := by
  fun_induction firstUnit inOptions text with
  | case1 => rfl
  | case2 inOptions c rest separates =>
    have small := Bytes.isAscii_isBlank c (Bool.and_eq_true_iff.1 separates).2
    rw [Bytes.view_cons_of_ascii small, firstUnit, if_pos separates, Bytes.view_nil]
  | case3 inOptions c rest joins next ih =>
    by_cases small : c.toNat < 128
    · rw [Bytes.view_cons_of_ascii small, Bytes.view_cons_of_ascii small, firstUnit, if_neg joins,
        Bytes.opensOptions_view, ih]
    · have large : 128 ≤ c.toNat := Nat.le_of_not_lt small
      have unchanged : (if inOptions then c != ']' else opensOptions c rest) = inOptions :=
        unchanged_of_wide (decide_eq_true large) inOptions rest
      rw [unchanged] at ih
      rw [Bytes.view_cons, firstUnit_wide (Bytes.allIn_isWide_ofChar large), ih, Bytes.view_cons]
      simp only [next, unchanged]

end Bytes

section Places

structure UnitAt (text : List Char) (place : Extent) : Prop where
  nonempty : place.start < place.stop
  within : place.stop ≤ text.length
  joined : ∀ position, place.start ≤ position → position < place.stop → ¬ SeparatesAt text position
  starts : place.start = 0 ∨ SeparatesAt text (place.start - 1)
  stops : place.stop = text.length ∨ SeparatesAt text place.stop

structure PlacesFrom (text : List Char) (first : Nat) (places : List Extent) : Prop where
  unit : ∀ place ∈ places, first ≤ place.start ∧ UnitAt text place
  ordered : places.Pairwise fun a b => a.stop ≤ b.start
  covers : ∀ position, first ≤ position → position < text.length → ¬ SeparatesAt text position →
    ∃ place ∈ places, place.start ≤ position ∧ position < place.stop

/-- The text ends here, or a unit can start here and no option list is open. -/
def FreshAt (text : List Char) (position : Nat) : Prop :=
  position = text.length ∨ (∀ sign, ¬ OptionsReach text sign position) ∧
    (position = 0 ∨ SeparatesAt text (position - 1) ∨ SeparatesAt text position)

variable {text : List Char} {first : Nat} {places : List Extent}

theorem SeparatesAt.freshAt {position : Nat} (separates : SeparatesAt text position) :
    FreshAt text position := .inr ⟨separates.2, .inr (.inr separates)⟩

theorem SeparatesAt.freshAt_succ {position : Nat} (separates : SeparatesAt text position) :
    FreshAt text (position + 1) := by
  refine .inr ⟨fun sign reach => ?_, .inr (.inl separates)⟩
  exact Nat.not_lt_of_le (separates.lt_sign reach (Nat.le_succ position)) reach.later

theorem placesFrom_end : PlacesFrom text text.length [] where
  unit place member := by simp at member
  ordered := .nil
  covers position start stop := absurd stop (Nat.not_lt_of_le start)

theorem PlacesFrom.skip (found : PlacesFrom text (first + 1) places)
    (separates : SeparatesAt text first) : PlacesFrom text first places where
  unit place member := by
    obtain ⟨start, unit⟩ := found.unit place member
    exact ⟨Nat.le_of_succ_le start, unit⟩
  ordered := found.ordered
  covers position start stop joined := by
    refine found.covers position ?_ stop joined
    rcases Nat.lt_or_eq_of_le start with later | rfl
    · exact later
    · exact absurd separates joined

theorem PlacesFrom.cons {stop : Nat} (found : PlacesFrom text stop places)
    (unit : UnitAt text ⟨first, stop⟩) : PlacesFrom text first (⟨first, stop⟩ :: places) where
  unit place member := by
    rcases List.mem_cons.1 member with rfl | member
    · exact ⟨Nat.le_refl _, unit⟩
    · obtain ⟨start, later⟩ := found.unit place member
      exact ⟨Nat.le_trans (Nat.le_of_lt unit.nonempty) start, later⟩
  ordered := List.pairwise_cons.2 ⟨fun place member => (found.unit place member).1, found.ordered⟩
  covers position start inText joined := by
    by_cases inFirst : position < stop
    · exact ⟨_, List.mem_cons_self, start, inFirst⟩
    · obtain ⟨place, member, around⟩ :=
        found.covers position (Nat.le_of_not_lt inFirst) inText joined
      exact ⟨place, List.mem_cons_of_mem _ member, around⟩

theorem unitAt_of_firstUnit {front back unit rest : List Char} (nonempty : unit ≠ [])
    (split : back = unit ++ rest) (cuts : firstUnit false back = (unit, rest))
    (fresh : FreshAt (front ++ back) front.length) :
    UnitAt (front ++ back) ⟨front.length, front.length + unit.length⟩ ∧
      FreshAt (front ++ back) (front.length + unit.length) := by
  have size := List.length_pos_iff.2 nonempty
  have length : (front ++ back).length = front.length + (unit.length + rest.length) := by
    rw [List.length_append, split, List.length_append]
  obtain ⟨outside, starts⟩ := fresh.resolve_left (by omega)
  obtain ⟨joined, stops⟩ := separatesAt_of_firstUnit cuts
  rw [← separatesAt_append outside] at stops
  have inUnit (position : Nat) (start : front.length ≤ position)
      (stop : position < front.length + unit.length) : ¬ SeparatesAt (front ++ back) position := by
    obtain ⟨index, rfl⟩ := Nat.exists_eq_add_of_le start
    rw [separatesAt_append outside]
    exact joined index (by omega)
  have ends : front.length + unit.length = (front ++ back).length ∨
      SeparatesAt (front ++ back) (front.length + unit.length) := by
    refine stops.imp_left fun empty => ?_
    rw [length, empty, List.length_nil, Nat.add_zero]
  have within : front.length + unit.length ≤ (front ++ back).length := by omega
  refine ⟨⟨Nat.lt_add_of_pos_right size, within, inUnit, ?_, ends⟩, ?_⟩
  · refine starts.imp_right fun separates => separates.resolve_right ?_
    exact inUnit front.length (Nat.le_refl _) (by omega)
  · exact ends.elim .inl SeparatesAt.freshAt

theorem separatesAt_of_freshAt {front back : List Char} {c : Char}
    (fresh : FreshAt (front ++ c :: back) front.length) (blank : isBlank c = true) :
    SeparatesAt (front ++ c :: back) front.length := by
  have outside := (fresh.resolve_left (by simp)).1
  exact ⟨(@blankAt_append front (c :: back) 0).2 (blankAt_cons_zero.2 blank), outside⟩

theorem exists_placesFrom {before rest : List Char} (split : text = before ++ rest)
    (fresh : FreshAt (Bytes.view text) (utf8Length before)) :
    ∃ places, places.map (Bytes.cut? text) = (units rest).map some ∧
      PlacesFrom (Bytes.view text) (utf8Length before) places := by
  induction rest using units_induction generalizing before with
  | nil =>
    obtain rfl : text = before := split.trans (List.append_nil before)
    refine ⟨[], rfl, ?_⟩
    rw [← Bytes.length_view]
    exact placesFrom_end
  | blank c rest blank ih =>
    have small := Bytes.isAscii_isBlank c blank
    have bytes : Bytes.view text = Bytes.view before ++ c :: Bytes.view rest := by
      rw [split, Bytes.view_append, Bytes.view_cons_of_ascii small]
    have next : utf8Length (before ++ [c]) = utf8Length before + 1 := by
      rw [utf8Length_append, utf8Length, utf8Length, Bytes.utf8Size_of_ascii small]
    have separates : SeparatesAt (Bytes.view text) (utf8Length before) := by
      rw [bytes, ← Bytes.length_view] at fresh ⊢
      exact separatesAt_of_freshAt fresh blank
    obtain ⟨places, cut, found⟩ := @ih (before ++ [c]) (by simp [split])
      (next ▸ separates.freshAt_succ)
    rw [next] at found
    exact ⟨places, by rw [cut, units_of_blank blank], found.skip separates⟩
  | unit c inner rest other first ih =>
    have bytes : Bytes.view text = Bytes.view before ++ Bytes.view (c :: (inner ++ rest)) := by
      rw [split, Bytes.view_append]
    have size := utf8Length_append before (c :: inner)
    obtain ⟨unit, next⟩ : UnitAt (Bytes.view text)
          ⟨utf8Length before, utf8Length (before ++ c :: inner)⟩ ∧
        FreshAt (Bytes.view text) (utf8Length (before ++ c :: inner)) := by
      rw [size, ← Bytes.length_view before, ← Bytes.length_view (c :: inner), bytes]
      rw [bytes, ← Bytes.length_view] at fresh
      refine unitAt_of_firstUnit ?_ (Bytes.view_append (c :: inner) rest) ?_ fresh
      · rw [← List.length_pos_iff, Bytes.length_view]
        exact Nat.pos_of_ne_zero (mt utf8Length_eq_zero_iff.1 (List.cons_ne_nil c inner))
      · rw [firstUnit_view, first]
    obtain ⟨places, cut, found⟩ := @ih (before ++ c :: inner) (by simp [split]) next
    refine ⟨_ :: places, ?_, found.cons unit⟩
    rw [units_of_firstUnit other first, List.map_cons, List.map_cons, cut,
      Bytes.cut?_of_append split rfl size]

end Places

/-- The places of the units of a text. Only blanks are in none of them, each stands between blanks
or the ends of the text, and a blank in a unit is in an option list that starts in this unit. -/
structure UnitsAt (text : List Char) (places : List Extent) : Prop where
  nonempty : ∀ place ∈ places, place.start < place.stop
  within : ∀ place ∈ places, place.stop ≤ text.length
  ordered : places.Pairwise fun a b => a.stop ≤ b.start
  covers : ∀ position c, text[position]? = some c → isBlank c = false →
    ∃ place ∈ places, place.start ≤ position ∧ position < place.stop
  starts : ∀ place ∈ places, place.start = 0 ∨ BlankAt text (place.start - 1)
  stops : ∀ place ∈ places, place.stop = text.length ∨ BlankAt text place.stop
  blanks : ∀ place ∈ places, ∀ position, place.start ≤ position → position < place.stop →
    BlankAt text position → ∃ sign, place.start ≤ sign ∧ OptionsReach text sign position
  unbroken : ∀ place ∈ places, ∀ sign position, place.start ≤ sign → sign < place.stop →
    OptionsReach text sign position → position < text.length → position < place.stop

section Facts

variable {text : List Char} {place : Extent} (unit : UnitAt text place)

include unit

/-- A list that holds a blank of a unit starts in the unit: it cannot reach over the blank that
separates in front. -/
theorem UnitAt.exists_sign {position : Nat} (start : place.start ≤ position)
    (stop : position < place.stop) (blank : BlankAt text position) :
    ∃ sign, place.start ≤ sign ∧ OptionsReach text sign position := by
  have inList : ∃ sign, OptionsReach text sign position := by
    by_contra none
    exact unit.joined position start stop ⟨blank, not_exists.1 none⟩
  obtain ⟨sign, reach⟩ := inList
  refine ⟨sign, ?_, reach⟩
  rcases unit.starts with first | separates
  · exact first ▸ Nat.zero_le sign
  · exact Nat.le_of_pred_lt (separates.lt_sign reach (Nat.le_trans (Nat.sub_le _ 1) start))

theorem UnitAt.options_within {sign position : Nat} (stop : sign < place.stop)
    (reach : OptionsReach text sign position) (inText : position < text.length) :
    position < place.stop := by
  by_contra past
  have separates := unit.stops.resolve_left (by omega)
  exact Nat.lt_asymm stop (separates.lt_sign reach (Nat.le_of_not_lt past))

end Facts

theorem PlacesFrom.unitsAt {text : List Char} {places : List Extent}
    (found : PlacesFrom text 0 places) : UnitsAt text places where
  nonempty place member := (found.unit place member).2.nonempty
  within place member := (found.unit place member).2.within
  ordered := found.ordered
  covers position c here other := by
    refine found.covers position (Nat.zero_le _) (List.getElem?_eq_some_iff.1 here).1 ?_
    rintro ⟨⟨d, same, blank⟩, -⟩
    obtain rfl := Option.some.inj (here.symm.trans same)
    simp [other] at blank
  starts place member := (found.unit place member).2.starts.imp_right And.left
  stops place member := (found.unit place member).2.stops.imp_right And.left
  blanks place member _ := (found.unit place member).2.exists_sign
  unbroken place member _ _ _ := (found.unit place member).2.options_within

section Compile

theorem isSeparatorUnit_dropTrailingCommas (unit : List Char) :
    isSeparatorUnit (dropTrailingCommas unit) = isSeparatorUnit unit := by
  obtain ⟨commas, whole, separates, -⟩ := dropWhile_reverse_iff.1
    (rfl : (unit.reverse.dropWhile (· == ',')).reverse = dropTrailingCommas unit)
  have inClass : isSeparatorUnit commas = true :=
    List.all_eq_true.2 fun c member => by simp [separates c member]
  calc isSeparatorUnit (dropTrailingCommas unit)
      = (isSeparatorUnit (dropTrailingCommas unit) && isSeparatorUnit commas) := by
        rw [inClass, Bool.and_true]
    _ = isSeparatorUnit (dropTrailingCommas unit ++ commas) := List.all_append.symm
    _ = isSeparatorUnit unit := congrArg isSeparatorUnit whole.symm

theorem length_operandUnits (rest : List (List Char)) :
    (operandUnits rest).length =
      rest.countP fun unit => unit.any fun c => c != ',' && c != '(' && c != ')' := by
  rw [operandUnits, ← List.countP_eq_length_filter, List.countP_map]
  refine congrArg (rest.countP ·) (funext fun unit => ?_)
  rw [Function.comp, isSeparatorUnit_dropTrailingCommas, isSeparatorUnit, List.not_all_eq_any_not]
  simp [bne, Bool.and_assoc]

theorem compile_eq_empty_iff {legend : Legend} {policy : OperandPolicy} {text : String} :
    Rule.compile legend policy text = .error .empty ↔ AllIn isBlank text.toList := by
  rw [← units_eq_nil_iff, Rule.compile]
  cases units text.toList with
  | nil => simp
  | cons head rest => simp

end Compile

/-- Cutting a rule into units loses nothing but blanks between them: what a scan of the bytes finds
stands in the text at places that hold all else. A text that is not blank compiles, and each unit
after the first that has a character other than a comma or a parenthesis gives one slot. -/
theorem units_lose_only_blanks (text : String) :
    Bytes.units text.toList = .ok (units text.toList) ∧
    (∃ places, places.map (Bytes.cut? text.toList) = (units text.toList).map some ∧
      UnitsAt (Bytes.view text.toList) places) ∧
    ∀ legend policy,
      (Rule.compile legend policy text = .error .empty ↔ AllIn isBlank text.toList) ∧
      (AllIn isBlank text.toList ∨ ∃ rule, Rule.compile legend policy text = .ok rule ∧
        rule.slots.length = (units text.toList).tail.countP fun unit =>
          unit.any fun c => c != ',' && c != '(' && c != ')') := by
  refine ⟨Bytes.units_eq text.toList, ?_, fun legend policy => ⟨compile_eq_empty_iff, ?_⟩⟩
  · have fresh : FreshAt (Bytes.view text.toList) (utf8Length []) :=
      .inr ⟨fun sign reach => Nat.not_lt_zero sign reach.later, .inl rfl⟩
    obtain ⟨places, cut, found⟩ := exists_placesFrom (List.nil_append text.toList).symm fresh
    exact ⟨places, cut, found.unitsAt⟩
  · rw [← units_eq_nil_iff]
    cases split : units text.toList with
    | nil => exact .inl rfl
    | cons head rest =>
      refine .inr ⟨_, compile_eq_ok_iff.2 ⟨head, rest, split, rfl⟩, ?_⟩
      rw [List.length_map, length_operandUnits, List.tail_cons]

/-- A list holds its blanks wherever it starts in a unit, and one that nothing closes takes the rest
of the text. -/
example : units "ld a%[0 1]b , (é%[2 3".toList =
    ["ld".toList, "a%[0 1]b".toList, ",".toList, "(é%[2 3".toList] := by
  decide

end AsmLint
