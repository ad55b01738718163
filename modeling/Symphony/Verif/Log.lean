import Symphony.Kernel.Log
import Symphony.Verif.Scan
import Symphony.Verif.Exceptions

/-!
# What the log says

A reader of the log who knows the formats finds in it what the kernel printed: in the text of an
exception the registers of the interrupted program, and in the lines of the boot the whole memory
map.
-/

namespace Symphony

/-! ## Literals and templates -/

/-- Strings with the same characters are the same. -/
theorem CString.eq_of_bytes {s t : CString} (same : s.bytes = t.bytes) : s = t := by
  cases s
  cases t
  dsimp only at same
  subst same
  rfl

/-- The segments of a text without conversions. -/
def plainText (s : String) : List Segment := (textChars s).map .plain

/-- A format without conversions. -/
def plainTemplate (fmt : CString) (plain : ∀ c ∈ fmt.bytes, c ≠ chr '%') : Template where
  segments := fmt.bytes.map .plain
  wellFormed := by
    intro segment member
    obtain ⟨c, inside, rfl⟩ := List.mem_map.mp member
    exact ⟨plain c inside, fun nul => fmt.noNul (nul ▸ inside)⟩
  fits := by
    rw [List.flatMap_map]
    change (fmt.bytes.flatMap fun c => [c]).length < _
    rw [List.flatMap_singleton']
    exact fmt.fits

/-- A format without conversions is printed as it is. -/
theorem debugVprintf_plain (fmt : CString) (plain : ∀ c ∈ fmt.bytes, c ≠ chr '%')
    (short : 37 * fmt.bytes.length < 2 ^ 31) :
    ∃ p, debugVprintf fmt [] = .ok p ∧ p.out = fmt.bytes := by
  have format : (plainTemplate fmt plain).format = fmt := by
    apply CString.eq_of_bytes
    change (fmt.bytes.map Segment.plain).flatMap Segment.chars = fmt.bytes
    rw [List.flatMap_map]
    exact List.flatMap_singleton' fmt.bytes
  have shows : Shows (plainTemplate fmt plain).segments [] [] fmt.bytes := by
    have all := Shows.nil.plains fmt.bytes
    rwa [List.append_nil, List.append_nil] at all
  obtain ⟨p, returned, out⟩ := shows.debugVprintf (by
    change fmt.bytes.length + 36 * (fmt.bytes.map Segment.plain).length < _
    rw [List.length_map]
    omega)
  exact ⟨p, format ▸ returned, out⟩

/-- The text of a level comes in front of what is printed. -/
theorem debugLog_eq (loglevel : Int32) {fmt : CString} {args : List VaArg} {p : Printer}
    (printed : debugVprintf fmt args = .ok p) :
    ∃ q, debugLog loglevel fmt args = .ok q ∧ q.out = (levelText loglevel).bytes ++ p.out := by
  refine ⟨_, by rw [debugLog, printed, ok_bind], ?_⟩
  change (debugPrint (levelText loglevel)).out ++ p.out = _
  rw [debugPrint, foldl_putchar]
  rfl

/-- The text of a panic stands behind its level and its name. -/
theorem panicOutput_eq {fmt : CString} {args : List VaArg} {p : Printer}
    (printed : debugVprintf fmt args = .ok p) :
    panicOutput fmt args = .ok (textChars "[ FATAL ] Kernel Panic! " ++ p.out) := by
  obtain ⟨q, head, out⟩ := debugVprintf_plain (literal "Kernel Panic! ") (by decide +kernel)
    (by decide +kernel)
  obtain ⟨r, logged, text⟩ := debugLog_eq loglevelFatal head
  rw [panicOutput, logged, ok_bind, printed, ok_bind, text, out]
  congr 2

/-! ## Words behind labels -/

/-- A word behind a label. -/
structure WordField where
  /-- What stands in front of the word. -/
  label : List UInt8
  /-- Flags. -/
  flags : List UInt8
  /-- Width. -/
  width : List UInt8

namespace WordField

/-- Segments of some fields. -/
def segments : List WordField → List Segment
  | [] => []
  | f :: rest => f.label.map .plain ++ wordSegment f.flags f.width :: segments rest

/-- Fields that a reader can tell apart: a word ends where the next label starts. -/
def Separate : List WordField → Prop
  | [] => True
  | f :: rest =>
    ¬ (flagsOf 0 f.flags &&& leftAlign ≠ 0 ∧ flagsOf 0 f.flags &&& prependZeroes ≠ 0) ∧
      Stops (segments rest) (wordChars f.flags f.width) ∧ Separate rest

/-- It is decidable whether a reader can tell fields apart. -/
def decideSeparate : ∀ fields, Decidable (Separate fields)
  | [] => instDecidableTrue
  | _ :: rest =>
    have := decideSeparate rest
    inferInstanceAs (Decidable (¬ (_ ∧ _) ∧ Stops _ _ ∧ Separate rest))

instance : DecidablePred Separate := decideSeparate

/-- Text of some fields. -/
def text : List WordField → List UInt64 → List UInt8
  | f :: rest, v :: values => f.label ++ (wordText f.flags f.width v ++ text rest values)
  | _, _ => []

/-- Fields show their words. -/
theorem shows {fields : List WordField} (values : List UInt64) (separate : Separate fields)
    (same : fields.length = values.length) :
    Shows (segments fields) (values.map wordArg) (values.map fun v => .number v.toNat)
      (text fields values) := by
  induction fields generalizing values with
  | nil =>
    rw [List.length_eq_zero_iff.mp same.symm]
    exact Shows.nil
  | cons f rest ih =>
    cases values with
    | nil => cases same
    | cons v values =>
      obtain ⟨order, stops, separate⟩ := separate
      exact ((ih values separate (Nat.succ.inj same)).word f.flags f.width v order stops).plains f.label

/-- The text of fields is short. -/
theorem length_text_le (fields : List WordField) (values : List UInt64) :
    (text fields values).length ≤ (fields.map fun f => f.label.length + 275).sum := by
  induction fields generalizing values with
  | nil => exact Nat.zero_le _
  | cons f rest ih =>
    cases values with
    | nil => exact Nat.zero_le _
    | cons v values =>
      have word := length_wordText_le f.flags f.width v
      have later := ih values
      rw [text, List.length_append, List.length_append, List.map_cons, List.sum_cons]
      omega

end WordField

/-! ## The text of an exception -/

/-- A label and `%#016llx`. -/
def paddedWord (label : String) : WordField :=
  ⟨textChars label, [chr '#', chr '0'], [chr '1', chr '6']⟩

/-- A label and `%#llx`. -/
def bareWord (label : String) : WordField := ⟨textChars label, [chr '#'], []⟩

/-- The words in the text of an exception. -/
def dumpFields : List WordField :=
  [paddedWord "!\nRAX = ", paddedWord " RBX = ", paddedWord " RCX = ",
    paddedWord "\nRDX = ", paddedWord " RSI = ", paddedWord " RDI = ",
    paddedWord "\nRBP = ", paddedWord " RSP = ", paddedWord " RIP = ",
    paddedWord "\nR8  = ", paddedWord " R9  = ", paddedWord " R10 = ",
    paddedWord "\nR11 = ", paddedWord " R12 = ", paddedWord " R13 = ",
    paddedWord "\nR14 = ", paddedWord " R15 = ",
    paddedWord "\nRFLAGS = ",
    bareWord "\nCS = ", bareWord " DS = ", bareWord " SS = ",
    paddedWord "\nCR0 = ", paddedWord " CR2 = ",
    paddedWord "\nCR3 = ", paddedWord " CR4 = ",
    paddedWord "\nV = ", paddedWord " ERR = "]

/-- The template of the text of an exception. -/
def dumpTemplate : Template where
  segments := stringSegment :: WordField.segments dumpFields
  wellFormed := by decide +kernel
  fits := by decide +kernel

/-- It is the format of the handler. -/
theorem dumpTemplate_format : dumpTemplate.format = exceptionFormat :=
  CString.eq_of_bytes (by decide +kernel)

/-- The words of a text of an exception are read apart. -/
theorem dumpFields_separate : WordField.Separate dumpFields := by decide +kernel

/-- What the handler reports. -/
structure Report where
  /-- Name of the exception. -/
  message : List UInt8
  /-- Registers of the interrupted program. -/
  regs : Regs
  /-- Control registers. -/
  cr : ControlRegs
deriving DecidableEq

/-- The words of a report in their order. -/
def Report.words (r : Report) : List UInt64 :=
  [r.regs.rax, r.regs.rbx, r.regs.rcx, r.regs.rdx, r.regs.rsi, r.regs.rdi, r.regs.rbp, r.regs.rsp,
    r.regs.rip, r.regs.r8, r.regs.r9, r.regs.r10, r.regs.r11, r.regs.r12, r.regs.r13, r.regs.r14,
    r.regs.r15, r.regs.rflags, r.regs.cs, r.regs.ds, r.regs.ss, r.cr.cr0, r.cr.cr2, r.cr.cr3,
    r.cr.cr4, r.regs.intn, r.regs.errCode]

/-- The word that a reader found. -/
def Shown.word : Shown → UInt64
  | number v => UInt64.ofNat v.toNat
  | text _ => 0

/-- The characters that a reader found. -/
def Shown.chars : Shown → List UInt8
  | number _ => []
  | text chars => chars

/-- The report that consists of the values a reader found. -/
def reportOf (message : Shown) (values : List Shown) : Report :=
  let word (k : Nat) : UInt64 := (values.getD k (.number 0)).word
  { message := message.chars
    regs := {
      rax := word 0, rbx := word 1, rcx := word 2, rdx := word 3, rsi := word 4, rdi := word 5
      rbp := word 6, rsp := word 7, rip := word 8, r8 := word 9, r9 := word 10, r10 := word 11
      r11 := word 12, r12 := word 13, r13 := word 14, r14 := word 15, r15 := word 16
      rflags := word 17, cs := word 18, ds := word 19, ss := word 20
      intn := word 25, errCode := word 26 }
    cr := { cr0 := word 21, cr2 := word 22, cr3 := word 23, cr4 := word 24 } }

/-- Reading the text of an exception. -/
def readDump (text : List UInt8) : Option Report :=
  match scan (plainText "[ FATAL ] Kernel Panic! " ++ dumpTemplate.segments) text with
  | some (message :: values) => some (reportOf message values)
  | _ => none

/-- The words of a report are read back. -/
theorem reportOf_words (r : Report) :
    reportOf (.text r.message) (r.words.map fun v => .number v.toNat) = r := by
  have word (v : UInt64) : (Shown.number v.toNat).word = v := UInt64.ofNat_toNat
  simp only [reportOf, Report.words, List.map_cons, List.map_nil, List.getD_cons_zero,
    List.getD_cons_succ, word]
  rfl

/-- No message of an exception contains the character behind it. -/
theorem messages_stop : ∀ message ∈ exceptionMessages,
    Stops (WordField.segments dumpFields) message.bytes ∧ message.bytes.length ≤ 100 := by
  decide +kernel

/-- What the handler prints can be read, for all registers. -/
theorem readDump_exceptionHandler (places : Literals) {regs : Regs} (cr : ControlRegs)
    {message : CString} (listed : exceptionMessages[regs.intn.toNat]? = some message) :
    ∃ out, archExceptionHandler places regs cr = .ok out ∧
      readDump out = some ⟨message.bytes, regs, cr⟩ := by
  obtain ⟨stops, short⟩ := messages_stop message (List.mem_of_getElem? listed)
  have words := WordField.shows (Report.mk message.bytes regs cr).words dumpFields_separate rfl
  have shows := words.string message (places message).2 stops
  have length := WordField.length_text_le dumpFields (Report.mk message.bytes regs cr).words
  have total : (dumpFields.map fun f => f.label.length + 275).sum ≤ 10000 := by decide +kernel
  have segments : dumpTemplate.segments.length ≤ 1000 := by decide +kernel
  obtain ⟨p, printed, out⟩ := shows.debugVprintf (t := dumpTemplate) (by
    rw [List.length_append]
    omega)
  rw [dumpTemplate_format] at printed
  refine ⟨textChars "[ FATAL ] Kernel Panic! " ++ p.out, ?_, ?_⟩
  · rw [archExceptionHandler, listed]
    exact panicOutput_eq printed
  · have scanned := (shows.plains (textChars "[ FATAL ] Kernel Panic! ")).scan
    rw [readDump, out]
    unfold plainText dumpTemplate
    rw [scanned]
    exact congrArg some (reportOf_words ⟨message.bytes, regs, cr⟩)

/-! ## Exceptions from the processor to the log -/

namespace Interrupted

/-- What the handler finds. Where the stub pushes a word too many, the fields behind the vector
are shifted: the error code of the processor is in the place of RIP. -/
def reported (p : Interrupted) (vector : Fin 32) (error : UInt64) : Regs :=
  if vector ∈ twice then
    { p.regs vector error with
      errCode := 0
      rip := error
      cs := p.rip
      rflags := p.cs.toUInt64
      rsp := p.rflags
      ss := p.cpu.rsp }
  else p.regs vector error

/-- The words on top of the stack are the first ones of more words. -/
theorem stack_take (c : Cpu) (few more : Nat) : c.stack few = (c.stack (few + more)).take few := by
  unfold Cpu.stack
  generalize c.rsp = place
  induction few generalizing place with
  | zero => simp [Memory.words]
  | succ few ih =>
    rw [show few + 1 + more = few + more + 1 by omega, Memory.words, Memory.words, List.take_succ_cons,
      ← ih]

/-- Every stub calls the handler with this structure. -/
theorem reaches_reported (p : Interrupted) (stack : UInt64) (vector : Fin 32) (error : UInt64) :
    ∃ c, Reaches interruptText ⟨isr vector, p.raise stack vector error⟩
        ⟨.call .archExceptionHandler :: exceptionExit, c⟩ ∧
      ∀ back, (c.push back).mem.regs (c.reg .rdi) = p.reported vector error := by
  obtain ⟨c, call, rdi, -, words⟩ := p.reaches_handler stack vector error
  refine ⟨c, call, fun back => regs_eq_of_words ?_⟩
  have top := stack_take c 23 ((errorWords vector error).length - 1)
  have some : 1 ≤ (errorWords vector error).length := by
    rw [length_errorWords]
    split <;> decide
  rw [show 23 + ((errorWords vector error).length - 1) = 22 + (errorWords vector error).length by omega,
    words] at top
  rw [rdi, c.words_push back (by decide), top]
  by_cases listed : vector ∈ twice
  · have both : errorWords vector error = [0, error] := by
      have table (v : Fin 32) : v ∈ twice → PushesZero v ∧ PushesError v := by
        revert v
        decide
      obtain ⟨zero, hasError⟩ := table vector listed
      simp [errorWords, zero, hasError]
    rw [both, reported, if_pos listed]
    rfl
  · rw [errorWords_of_once listed, reported, if_neg listed]
    rfl

/-- Every vector has a message. -/
theorem exists_message (vector : Fin 32) : ∃ message,
    exceptionMessages[(UInt64.ofNat vector).toNat]? = some message := by
  have count : exceptionMessages.length = 32 := rfl
  have small : (UInt64.ofNat vector).toNat < exceptionMessages.length := by
    rw [toNat_ofNat_of_fits (by omega), count]
    exact vector.2
  exact ⟨_, List.getElem?_eq_getElem small⟩

/-- An exception comes to the log: for every interrupted program, stack and vector, what the
handler prints is read as the message of the vector with the registers of the program, except
that the fields behind the vector are shifted where the stub pushed a word too many. -/
theorem reported_in_log (p : Interrupted) (stack : UInt64) (vector : Fin 32) (error : UInt64)
    (places : Literals) (cr : ControlRegs) :
    ∃ c message, exceptionMessages[vector.val]? = some message ∧
      Reaches interruptText ⟨isr vector, p.raise stack vector error⟩
        ⟨.call .archExceptionHandler :: exceptionExit, c⟩ ∧
      ∀ back, ∃ out,
        archExceptionHandler places ((c.push back).mem.regs (c.reg .rdi)) cr = .ok out ∧
        readDump out = some ⟨message.bytes, p.reported vector error, cr⟩ := by
  obtain ⟨message, listed⟩ := exists_message vector
  obtain ⟨c, call, found⟩ := p.reaches_reported stack vector error
  have index : (UInt64.ofNat vector).toNat = vector.val := toNat_ofNat_of_fits (by omega)
  have intn : (p.reported vector error).intn = UInt64.ofNat vector := by
    unfold reported
    split_ifs <;> rfl
  refine ⟨c, message, index ▸ listed, call, fun back => ?_⟩
  rw [found back]
  rw [← intn] at listed
  exact readDump_exceptionHandler places cr listed

end Interrupted

/-! ## The memory map in the log -/

/-- The segments of a line of the memory map, in front of others. -/
def memmapSegments (rest : List Segment) : List Segment :=
  plainText "memmap entry: " ++ wordSegment [chr '#'] [] ::
    (plainText "->" ++ wordSegment [chr '#'] [] ::
      (plainText " " ++ stringSegment :: (plainText "\n" ++ rest)))

/-- The template of a line of the memory map. -/
def memmapTemplate : Template where
  segments := memmapSegments []
  wellFormed := by decide +kernel
  fits := by decide +kernel

/-- It is the format of the loop. -/
theorem memmapTemplate_format : memmapTemplate.format = memmapFormat :=
  CString.eq_of_bytes (by decide +kernel)

namespace BootProtoMemmapEntry

/-- What a line says of an entry. -/
def shown (entry : BootProtoMemmapEntry) : List Shown :=
  [.number entry.base.toNat, .number (entry.base + entry.length).toNat,
    .text (bootProtoMemmapTypeToStr entry.type).bytes]

/-- The line of an entry without its level, in front of others. -/
def line (entry : BootProtoMemmapEntry) (rest : List UInt8) : List UInt8 :=
  textChars "memmap entry: " ++ (wordText [chr '#'] [] entry.base ++
    (textChars "->" ++ (wordText [chr '#'] [] (entry.base + entry.length) ++
      (textChars " " ++ ((bootProtoMemmapTypeToStr entry.type).bytes ++
        (textChars "\n" ++ rest))))))

/-- The arguments of a line. -/
def args (places : Literals) (entry : BootProtoMemmapEntry) : List VaArg :=
  [wordArg entry.base, wordArg (entry.base + entry.length),
    places.arg (bootProtoMemmapTypeToStr entry.type)]

/-- No name of a type contains the end of the line. -/
theorem type_stops (type : BootProtoMemmapType) :
    chr '\n' ∉ (bootProtoMemmapTypeToStr type).bytes ∧
      (bootProtoMemmapTypeToStr type).bytes.length ≤ 100 := by
  cases type <;> decide +kernel

/-- A field ends where a text starts that begins with another character. -/
theorem stops_plainText {s : String} {c : UInt8} {rest : List Segment} {field : List UInt8}
    (starts : (textChars s).head? = some c) (absent : c ∉ field) :
    Stops (plainText s ++ rest) field := by
  obtain ⟨behind, chars⟩ := List.head?_eq_some_iff.mp starts
  rw [plainText, chars]
  exact absent

/-- A line shows its entry. -/
theorem shows_line (places : Literals) (entry : BootProtoMemmapEntry) {segments : List Segment}
    {more : List VaArg} {found : List Shown} {text : List UInt8}
    (later : Shows segments more found text) :
    Shows (memmapSegments segments) (entry.args places ++ more) (entry.shown ++ found)
      (entry.line text) := by
  have newline := later.plains (textChars "\n")
  have type := newline.string _ (places (bootProtoMemmapTypeToStr entry.type)).2
    (stops_plainText (by decide +kernel) (type_stops entry.type).1)
  have space := type.plains (textChars " ")
  have last := space.word [chr '#'] [] (entry.base + entry.length)
    (by decide) (stops_plainText (by decide +kernel) (by decide +kernel : chr ' ' ∉ _))
  have arrow := last.plains (textChars "->")
  have first := arrow.word [chr '#'] [] entry.base
    (by decide) (stops_plainText (by decide +kernel) (by decide +kernel : chr '-' ∉ _))
  exact first.plains (textChars "memmap entry: ")

/-- A line is printed. -/
theorem debugLog_line (places : Literals) (entry : BootProtoMemmapEntry) :
    ∃ p, debugLog loglevelInfo memmapFormat (entry.args places) = .ok p ∧
      p.out = textChars "[ INFO  ] " ++ entry.line [] := by
  have shows := entry.shows_line places Shows.nil
  rw [List.append_nil] at shows
  have base := length_wordText_le [chr '#'] [] entry.base
  have last := length_wordText_le [chr '#'] [] (entry.base + entry.length)
  have type := (type_stops entry.type).2
  have head : (textChars "memmap entry: ").length = 14 := by decide +kernel
  have arrow : (textChars "->").length = 2 := by decide +kernel
  have space : (textChars " ").length = 1 := by decide +kernel
  have newline : (textChars "\n").length = 1 := by decide +kernel
  have segments : memmapTemplate.segments.length ≤ 100 := by decide +kernel
  obtain ⟨p, printed, out⟩ := shows.debugVprintf (t := memmapTemplate) (by
    simp only [line, List.length_append, List.length_nil]
    omega)
  rw [memmapTemplate_format] at printed
  obtain ⟨q, logged, text⟩ := debugLog_eq loglevelInfo printed
  exact ⟨q, logged, by rw [text, out]; rfl⟩

/-- A line has one end. -/
theorem count_line (entry : BootProtoMemmapEntry) (rest : List UInt8) :
    (entry.line rest).count (chr '\n') = 1 + rest.count (chr '\n') := by
  have word (v : UInt64) : (wordText [chr '#'] [] v).count (chr '\n') = 0 :=
    List.count_eq_zero.mpr (not_mem_wordText (by decide +kernel) v)
  have type := List.count_eq_zero.mpr (type_stops entry.type).1
  have head : (textChars "memmap entry: ").count (chr '\n') = 0 := by decide +kernel
  have arrow : (textChars "->").count (chr '\n') = 0 := by decide +kernel
  have space : (textChars " ").count (chr '\n') = 0 := by decide +kernel
  have newline : (textChars "\n").count (chr '\n') = 1 := by decide +kernel
  have first := word entry.base
  have last := word (entry.base + entry.length)
  simp only [line, List.count_append]
  omega

end BootProtoMemmapEntry

/-- The segments of that many lines with their levels. -/
def memmapLog : Nat → List Segment
  | 0 => []
  | lines + 1 => plainText "[ INFO  ] " ++ memmapSegments (memmapLog lines)

/-- The type that has a name. -/
def typeOfText (text : List UInt8) : Option BootProtoMemmapType :=
  [BootProtoMemmapType.unknown, .usable, .reserved, .acpiReclaimable, .acpiNvs, .badMemory,
    .bootloaderReclaimable, .kernelAndModules, .framebuffer].find? fun type =>
      (bootProtoMemmapTypeToStr type).bytes = text

/-- The entries that consist of the values a reader found. -/
def entriesOf : List Shown → Option (List BootProtoMemmapEntry)
  | [] => some []
  | .number base :: .number last :: .text type :: rest => do
    let type ← typeOfText type
    let rest ← entriesOf rest
    some (⟨UInt64.ofNat base.toNat, UInt64.ofNat last.toNat - UInt64.ofNat base.toNat, type⟩ :: rest)
  | _ => none

/-- Reading the lines of a memory map. -/
def readMemmap (text : List UInt8) : Option (List BootProtoMemmapEntry) :=
  scan (memmapLog (text.count (chr '\n'))) text >>= entriesOf

/-- The name of a type is read back. -/
theorem typeOfText_str (type : BootProtoMemmapType) :
    typeOfText (bootProtoMemmapTypeToStr type).bytes = some type := by
  cases type <;> decide +kernel

/-- What the lines say is read back. -/
theorem entriesOf_shown (entries : List BootProtoMemmapEntry) :
    entriesOf (entries.flatMap BootProtoMemmapEntry.shown) = some entries := by
  induction entries with
  | nil => rfl
  | cons entry entries ih =>
    have base : UInt64.ofNat (entry.base.toNat : Int).toNat = entry.base := UInt64.ofNat_toNat
    have last : UInt64.ofNat ((entry.base + entry.length).toNat : Int).toNat =
        entry.base + entry.length := UInt64.ofNat_toNat
    rw [List.flatMap_cons, BootProtoMemmapEntry.shown, List.cons_append, List.cons_append,
      List.cons_append, List.nil_append, entriesOf, typeOfText_str, ih, base, last,
      show entry.base + entry.length - entry.base = entry.length by grind]
    rfl

/-- The text of a memory map. -/
def memmapText : List BootProtoMemmapEntry → List UInt8
  | [] => []
  | entry :: entries => textChars "[ INFO  ] " ++ entry.line (memmapText entries)

/-- The text of a memory map shows its entries. -/
theorem shows_memmapText (places : Literals) (entries : List BootProtoMemmapEntry) :
    Shows (memmapLog entries.length) (entries.flatMap (·.args places))
      (entries.flatMap BootProtoMemmapEntry.shown) (memmapText entries) := by
  induction entries with
  | nil => exact Shows.nil
  | cons entry entries ih =>
    rw [List.flatMap_cons, List.flatMap_cons]
    exact (entry.shows_line places ih).plains (textChars "[ INFO  ] ")

/-- It has as many lines as the map has entries. -/
theorem count_memmapText (entries : List BootProtoMemmapEntry) :
    (memmapText entries).count (chr '\n') = entries.length := by
  induction entries with
  | nil => rfl
  | cons entry entries ih =>
    have level : (textChars "[ INFO  ] ").count (chr '\n') = 0 := by decide +kernel
    rw [memmapText, List.count_append, entry.count_line, ih, level, List.length_cons]
    omega

/-- A line stands behind those of the entries before it. -/
theorem memmapText_append (entries more : List BootProtoMemmapEntry) :
    memmapText (entries ++ more) = memmapText entries ++ memmapText more := by
  induction entries with
  | nil => rfl
  | cons entry entries ih =>
    have behind (rest rest' : List UInt8) : entry.line (rest ++ rest') = entry.line rest ++ rest' := by
      simp only [BootProtoMemmapEntry.line, List.append_assoc]
    rw [List.cons_append, memmapText, memmapText, ih, behind, List.append_assoc]

/-- A turn of the loop prints the line of its entry. -/
theorem startLogEntry_eq (places : Literals) (boot : Boot) {i : Nat} (inside : i < boot.entries.length)
    (out : List UInt8) : startLogEntry places boot (UInt64.ofNat i) out =
      .ok (out ++ memmapText [boot.entries[i].toBootProto]) := by
  have fits := boot.count_fits
  have index : (UInt64.ofNat i).toNat = i := toNat_ofNat_of_fits (by omega)
  obtain ⟨p, printed, text⟩ := boot.entries[i].toBootProto.debugLog_line places
  have got := entryGet_of_lt boot (UInt64.ofNat i) (by rwa [index])
  simp only [index] at got
  rw [startLogEntry, got, ok_bind]
  change debugLog _ _ (boot.entries[i].toBootProto.args places) >>= _ = _
  rw [printed, ok_bind, text]
  rfl

/-- The loop prints the text of the whole memory map. -/
theorem startLogMemmap_eq (places : Literals) (boot : Boot) :
    startLogMemmap places boot = .ok (memmapText (boot.entries.map LimineMemmapEntry.toBootProto)) := by
  have loop : Meets (startLogMemmap places boot)
      (fun out => out = memmapText ((boot.entries.take (0 + boot.entries.length)).map
        LimineMemmapEntry.toBootProto)) fun _ => False := by
    unfold startLogMemmap forRange
    rw [toNat_entryCount]
    apply forLoop_meets fun i out =>
      out = memmapText ((boot.entries.take i).map LimineMemmapEntry.toBootProto)
    · rintro i out - below rfl
      have inside : i < boot.entries.length := by
        have zero : (0 : UInt64).toNat = 0 := rfl
        omega
      rw [startLogEntry_eq places boot inside, ← memmapText_append, List.take_succ_eq_append_getElem inside,
        List.map_append]
      rfl
    · rfl
  obtain ⟨out, returned, rfl⟩ := loop.returns
  rw [returned, Nat.zero_add, List.take_length]

/-- The memory map is in the log: for every map of the bootloader, what the loop of `_start`
prints is read back as all its entries, with their bases, lengths and types. -/
theorem memmap_in_log (places : Literals) (boot : Boot) :
    ∃ out, startLogMemmap places boot = .ok out ∧
      readMemmap out = some (boot.entries.map LimineMemmapEntry.toBootProto) := by
  refine ⟨_, startLogMemmap_eq places boot, ?_⟩
  rw [readMemmap, count_memmapText, (shows_memmapText places _).scan]
  exact entriesOf_shown _

end Symphony
