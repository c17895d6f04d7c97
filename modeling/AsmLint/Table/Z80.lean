import AsmLint.Table.Basic

/-! The built-in table: the Z80 instruction set and the directives of its usual assemblers. In a
rule `%key` is a placeholder of the legend and `%[...]` lists the spellings allowed. -/

namespace AsmLint

namespace Z80

def legend : Legend := Dict.ofList [
  ("addr", .categories [.byte, .word, .labelName, .variableName]),
  ("any", .categories [.anything]),
  ("b", .tokens ["0", "1", "2", "3", "4", "5", "6", "7"]),
  ("cc", .tokens ["NZ", "Z", "NC", "C", "PO", "PE", "P", "M"]),
  ("d", .tokens ["IX", "IY", "BC", "DE", "HL", "AF"]),
  ("dd", .tokens ["BC", "DE", "HL", "SP"]),
  ("ee", .categories [.displacement, .labelName]),
  ("func", .categories [.labelName]),
  ("ir", .tokens ["I", "R"]),
  ("nn", .categories [.byte]),
  ("nnnn", .categories [.word]),
  ("pp", .tokens ["BC", "DE", "IX", "SP"]),
  ("qq", .tokens ["BC", "DE", "HL", "AF"]),
  ("r", .tokens ["A", "B", "C", "D", "E", "H", "L"]),
  ("rr", .tokens ["BC", "DE", "IY", "SP"]),
  ("s", .categories [.byte]),
  ("ss", .tokens ["BC", "DE", "HL", "SP"]),
  ("str", .categories [.quoted]),
  ("v", .tokens ["00h", "08h", "10h", "18h", "20h", "28h", "30h", "38h"]),
  ("var", .categories [.variableName]),
  ("xx", .tokens ["HL", "IX", "IY"])]

def instructions : Dict (List String) := Dict.ofList [
  ("ADC", ["ADC HL, %ss", "ADC A, %r", "ADC A, (HL)", "ADC A, (IX+%s)", "ADC A, (IY+%s)",
      "ADC A, %nn", "ADC %r", "ADC %nn"]),
  ("ADD", ["ADD A, %r", "ADD A, (HL)", "ADD A, (IX+%s)", "ADD A, (IY+%s)", "ADD A, %nn",
      "ADD HL, %ss", "ADD IX, %pp", "ADD IY, %rr"]),
  ("AND", ["AND %r", "AND (HL)", "AND (IX+%s)", "AND (IY+%s)", "AND %nn"]),
  ("BIT", ["BIT %b, (HL)", "BIT %b, (IX+%s)", "BIT %b, (IY+%s)", "BIT %b, %r"]),
  ("CALL", ["CALL %cc, %addr", "CALL %addr"]),
  ("CCF", ["CCF"]),
  ("CP", ["CP %r", "CP (%xx)", "CP (IX+%s)", "CP (IY+%s)", "CP %nn"]),
  ("CPD", ["CPD"]),
  ("CPDR", ["CPDR"]),
  ("CPI", ["CPI"]),
  ("CPIR", ["CPIR"]),
  ("CPL", ["CPL"]),
  ("DAA", ["DAA"]),
  ("DEC", ["DEC %r", "DEC (HL)", "DEC (IX+%s)", "DEC (IY+%s)", "DEC %ss", "DEC IX", "DEC IY"]),
  ("DI", ["DI"]),
  ("DJNZ", ["DJNZ %ee"]),
  ("EI", ["EI"]),
  ("EX", ["EX (SP), HL", "EX (SP), IX", "EX (SP), IY", "EX AF, AF'", "EX DE, HL"]),
  ("EXX", ["EXX"]),
  ("HALT", ["HALT"]),
  ("IM", ["IM %[0 1 2]"]),
  ("IN", ["IN A, (%nn)", "IN %r, (C)"]),
  ("INC", ["INC %r", "INC (HL)", "INC (IX+%s)", "INC (IY+%s)", "INC %ss", "INC IX", "INC IY"]),
  ("IND", ["IND"]),
  ("INDR", ["INDR"]),
  ("INI", ["INI"]),
  ("INIR", ["INIR"]),
  ("JP", ["JP (HL)", "JP (IX)", "JP (IY)", "JP %cc, %addr", "JP %addr"]),
  ("JR", ["JR C, %ee", "JR NC, %ee", "JR NZ, %ee", "JR Z, %ee", "JR %ee"]),
  ("LD", ["LD A, (BC)", "LD A, (DE)", "LD A, %ir", "LD %ir, A", "LD A, (%addr)", "LD (BC), A",
      "LD (DE), A", "LD (HL), %r", "LD (HL), %nn", "LD %dd, (%addr)", "LD %dd, %addr",
      "LD IX, (%addr)", "LD IX, %addr", "LD IY, (%addr)", "LD IY, %addr", "LD (IX+%s), %r",
      "LD (IX+%s), %nn", "LD (IY+%s), %r", "LD (IY+%s), %nn", "LD (%addr), A", "LD (%addr), %dd",
      "LD (%addr), IX", "LD (%addr), IY", "LD %r, (HL)", "LD %r, (IX+%s)", "LD %r, (IY+%s)",
      "LD %r, %r'", "LD %r, %nn", "LD SP, HL", "LD SP, IX", "LD SP, IY"]),
  ("LDD", ["LDD"]),
  ("LDDR", ["LDDR"]),
  ("LDI", ["LDI"]),
  ("LDIR", ["LDIR"]),
  ("NEG", ["NEG"]),
  ("NOP", ["NOP"]),
  ("OR", ["OR %r", "OR (HL)", "OR (IX+%s)", "OR (IY+%s)", "OR %nn"]),
  ("OTDR", ["OTDR"]),
  ("OTIR", ["OTIR"]),
  ("OUT", ["OUT (C), %r", "OUT (%nn), A"]),
  ("OUTD", ["OUTD"]),
  ("OUTI", ["OUTI"]),
  ("POP", ["POP IX", "POP IY", "POP %qq"]),
  ("PUSH", ["PUSH IX", "PUSH IY", "PUSH %qq"]),
  ("RES", ["RES %b, (HL)", "RES %b, (IX+%s)", "RES %b, (IY+%s)", "RES %b, %r"]),
  ("RET", ["RET", "RET %cc"]),
  ("RETI", ["RETI"]),
  ("RETN", ["RETN"]),
  ("RL", ["RL %r", "RL (HL)", "RL (IX+%s)", "RL (IY+%s)"]),
  ("RLA", ["RLA"]),
  ("RLC", ["RLC (HL)", "RLC (IX+%s)", "RLC (IY+%s)", "RLC %r"]),
  ("RLCA", ["RLCA"]),
  ("RLD", ["RLD"]),
  ("RR", ["RR %r", "RR (HL)", "RR (IX+%s)", "RR (IY+%s)"]),
  ("RRA", ["RRA"]),
  ("RRC", ["RRC %r", "RRC (HL)", "RRC (IX+%s)", "RRC (IY+%s)"]),
  ("RRCA", ["RRCA"]),
  ("RRD", ["RRD"]),
  ("RST", ["RST %v"]),
  ("SBC", ["SBC A, %r", "SBC A, (HL)", "SBC A, (IX+%s)", "SBC A, (IY+%s)", "SBC A, %nn",
      "SBC HL, %ss"]),
  ("SCF", ["SCF"]),
  ("SET", ["SET %b, (HL)", "SET %b, (IX+%s)", "SET %b, (IY+%s)", "SET %b, %r"]),
  ("SLA", ["SLA %r", "SLA (HL)", "SLA (IX+%s)", "SLA (IY+%s)"]),
  ("SRA", ["SRA %r", "SRA (HL)", "SRA (IX+%s)", "SRA (IY+%s)"]),
  ("SRL", ["SRL %r", "SRL (HL)", "SRL (IX+%s)", "SRL (IY+%s)"]),
  ("SUB", ["SUB %r", "SUB (%xx)", "SUB (IX+%s)", "SUB (IY+%s)", "SUB %nn"]),
  ("XOR", ["XOR %r", "XOR (HL)", "XOR (IX+%s)", "XOR (IY+%s)", "XOR %nn"])]

def directives : Dict (List String) := Dict.ofList [
  ("ALIGN", ["ALIGN %addr"]),
  ("BITS", ["BITS 16", "BITS 32", "BITS 64"]),
  ("DB", ["DB %any"]),
  ("DEFB", ["DEFB %any"]),
  ("DEFC", ["DEFC %any"]),
  ("DEFGROUP", ["DEFGROUP %any"]),
  ("DEFINE", ["DEFINE %any"]),
  ("DEFM", ["DEFM %str", "DEFM %str, %s", "DEFM %s"]),
  ("DEFS", ["DEFS %any"]),
  ("DEFVARS", ["DEFVARS %any"]),
  ("DEFW", ["DEFW %any"]),
  ("DM", ["DM %any"]),
  ("DS", ["DS.B %any", "DS.W %any", "DS.L %any", "DS.D %any"]),
  ("DW", ["DW %any"]),
  ("ELSE", ["ELSE"]),
  ("END", ["END"]),
  ("ENDIF", ["ENDIF"]),
  ("ENDM", ["ENDM"]),
  ("ENDR", ["ENDR"]),
  ("EQU", ["%var EQU %any"]),
  ("EXTERN", ["EXTERN %var"]),
  ("IF", ["IF %any"]),
  ("IFDEF", ["IFDEF %var", "IFDEF %func"]),
  ("IFNDEF", ["IFNDEF %var", "IFNDEF %func"]),
  ("INCBIN", ["INCBIN %str"]),
  ("INCLUDE", ["INCLUDE %str"]),
  ("MACRO", ["MACRO %any"]),
  ("ORG", ["ORG %nn", "ORG %nnnn", "ORG %var"]),
  ("PUBLIC", ["PUBLIC %func", "PUBLIC %var"]),
  ("REPT", ["REPT %var", "REPT %s"]),
  ("REPTI", ["REPTI %any"]),
  ("SECTION", ["SECTION %var"]),
  ("SEEK", ["SEEK %any"]),
  ("TIMES", ["TIMES %any"])]

def declarationKeywords : List String :=
  ["EXTERN", "SECTION", "DEFB", "DEFW", "DEFC", "MACRO", "PUBLIC"]

def table : RuleTable where
  schemaVersion := "1.0.0"
  name := "z80"
  legend := legend
  instructions := instructions
  directives := directives
  declarationKeywords := declarationKeywords

end Z80

def builtinTables : List (String × RuleTable) := [("z80", Z80.table)]

def builtinTableNames : List String := builtinTables.map (·.1)

structure UnknownTable where
  name : String
deriving DecidableEq, Repr

def UnknownTable.message (error : UnknownTable) : String :=
  "unknown rule table '" ++ error.name ++ "' (available: " ++
    String.intercalate ", " builtinTableNames ++ ")"

def builtinTable (name : String) : Except UnknownTable RuleTable :=
  match builtinTables.lookup name with
  | some table => .ok table
  | none => .error ⟨name⟩

end AsmLint
