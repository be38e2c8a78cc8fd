import Pttp.Bitset
import Pttp.Lib.LowBits
import Pttp.PasswordTools.RoundTrip

/-!
# Word lists: wordenc and worddec

A word is its index in the word file: eleven bits of it, the lowest first. The bit set
has room for twenty-four words. How many there were is not sent: wordenc writes as many
as it is given, and worddec reads twenty-four.
-/

namespace Pttp

open LowBits BitPacking

/-- The words of words/english.txt, as many as eleven bits can name. -/
structure WordFile where
  words : List Bytes
  length_words : words.length = 2 ^ 11

/-- The inner loop of wordenc: the bits and the place behind those that were set. -/
def setWord : Nat → Nat → Nat → List Bool → Cpp (List Bool × Nat)
  | 0, _, idx, bits => .ok (bits, idx)
  | left + 1, n, idx, bits => do
      let bits ← Cpp.assign bits idx (decide (n % 2 = 1))
      setWord left (n / 2) (idx + 1) bits

/-- The outer loop: the bits, if all words were found, and the output so far. -/
def setWords (words : List Bytes) :
    List Bytes → Nat → List Bool → Bytes → Cpp (Option (List Bool) × Bytes)
  | [], _, bits, out => .ok (some bits, out)
  | w :: rest, idx, bits, out =>
      let n := words.idxOf w
      if n = words.length then .ok (none, out)
      else do
        let (bits, idx) ← setWord 11 n idx bits
        setWords words rest idx bits (out ++ Bytes.decimal n ++ [10])

variable (G : GenericHash) (P : PwHash) (file : WordFile)

def bitsetLines (bits : List Bool) (msgB : Bytes) : Bytes :=
  Bytes.decimal bits.length ++ [10] ++ Bytes.bitsetText bits ++ [10] ++
    Bytes.decimal msgB.length ++ [10] ++ Bytes.put msgB ++ [10]

/-- The body of wordenc, from the list of words on. -/
def encodeWords (encWords : List Bytes) (passB saltB : Bytes) : Cpp (Int × Bytes) := do
  let (bits, out) ← setWords file.words encWords 0 (List.replicate (11 * 24) false) []
  match bits with
  | none => return (-1, out)
  | some bits => do
      let msgB ← Bytes.ofBitset bits
      let encrypted ← encrypt G P msgB passB saltB
      return (0, out ++ bitsetLines bits msgB ++ printEncrypted encrypted)

def wordenc (argv : List Bytes) (saltB : Bytes) : Cpp (Int × Bytes) :=
  match argv with
  | _ :: password :: argument :: arguments =>
      encodeWords G P file ((argument :: arguments).map Bytes.ofCString)
        (Bytes.ofCString password) saltB
  | _ => return (1, [])

/-- The inner loop of worddec. -/
def getWord (bits : List Bool) : Nat → Nat → Nat → Nat → Cpp Nat
  | 0, _, _, m => .ok m
  | left + 1, n, idx, m => do
      let bit ← Cpp.index bits idx
      getWord bits left (n + 1) (idx + 1) (m ||| bit.toNat <<< n)

/-- The outer loop: the words that are printed. -/
def getWords (words : List Bytes) (bits : List Bool) : Nat → Nat → Cpp (List Bytes)
  | 0, _ => .ok []
  | left + 1, idx => do
      let m ← getWord bits 11 0 idx 0
      let w ← Cpp.index words m
      let rest ← getWords words bits left (idx + 11)
      return w :: rest

def wordLines (words : List Bytes) : Bytes := words.flatMap (· ++ [10])

/-- What worddec prints: a report of bytes and bits, and the words. -/
structure Worddec where
  report : Bytes
  words : List Bytes

def Worddec.stdout (printed : Worddec) : Bytes := printed.report ++ wordLines printed.words

def worddec (argv : List Bytes) : Cpp (Int × Worddec) :=
  match argv with
  | [_, msgHex, saltHex, password] => do
      let msgB ← decrypt G P (Bytes.ofCString msgHex) (Bytes.ofCString saltHex)
        (Bytes.ofCString password)
      let (bits, lines) ← msgB.bitset (11 * 24)
      let words ← getWords file.words bits 24 0
      return (0, ⟨Bytes.put msgB ++ [10] ++ lines ++ Bytes.bitsetText bits ++ [10], words⟩)
  | _ => return (1, ⟨[], []⟩)

def lastLine (out : Bytes) : Bytes := (out.dropLast.reverse.takeWhile (· ≠ 10)).reverse

/-! ## Writing words -/

theorem setWord_cons (left n : Nat) (front back : List Bool) (bit : Bool) :
    setWord (left + 1) n front.length (front ++ bit :: back) =
      setWord left (n / 2) (front ++ [decide (n % 2 = 1)]).length
        (front ++ [decide (n % 2 = 1)] ++ back) := by
  rw [setWord, Cpp.assign_append, Cpp.ok_bind, List.length_append, List.length_singleton,
    List.append_assoc, List.singleton_append]

theorem setWord_eq (left n : Nat) (front back : List Bool) (room : left ≤ back.length) :
    setWord left n front.length (front ++ back) =
      .ok (front ++ low left n ++ back.drop left, (front ++ low left n).length) := by
  induction left generalizing n front back with
  | zero => simp [setWord, low]
  | succ left ih =>
    obtain _ | ⟨bit, back⟩ := back
    · simp at room
    · rw [setWord_cons, ih _ _ _ (Nat.le_of_succ_le_succ room), low_succ, Nat.testBit_zero,
        List.drop_succ_cons, List.append_assoc front, List.singleton_append]

theorem setWord_pastEnd (left n : Nat) (front back : List Bool) (full : back.length < left) :
    setWord left n front.length (front ++ back) = .error .pastEnd := by
  induction left generalizing n front back with
  | zero => exact absurd full (Nat.not_lt_zero _)
  | succ left ih =>
    obtain _ | ⟨bit, back⟩ := back
    · rw [setWord, List.append_nil, Cpp.assign_length, Cpp.error_bind]
    · rw [setWord_cons]
      exact ih _ _ _ (Nat.lt_of_succ_lt_succ full)

section Words

variable {words : List Bytes} {w : Bytes}

theorem setWords_cons (known : w ∈ words) (list : List Bytes) (front back : List Bool)
    (out : Bytes) :
    setWords words (w :: list) front.length (front ++ back) out =
      (setWord 11 (words.idxOf w) front.length (front ++ back) >>= fun (bits, idx) =>
        setWords words list idx bits (out ++ Bytes.decimal (words.idxOf w) ++ [10])) := by
  have found : words.idxOf w ≠ words.length := (List.idxOf_lt_length_of_mem known).ne
  rw [setWords]
  exact if_neg found

theorem setWords_cons_of_le (known : w ∈ words) (list : List Bytes) (front : List Bool)
    {back : List Bool} (room : 11 ≤ back.length) (out : Bytes) :
    setWords words (w :: list) front.length (front ++ back) out =
      setWords words list (front ++ low 11 (words.idxOf w)).length
        (front ++ low 11 (words.idxOf w) ++ back.drop 11)
        (out ++ Bytes.decimal (words.idxOf w) ++ [10]) := by
  rw [setWords_cons known, setWord_eq 11 _ front back room, Cpp.ok_bind]

end Words

/-- Words of the file are written behind one another while there is room. -/
theorem setWords_eq (words : List Bytes) {list : List Bytes} (known : ∀ w ∈ list, w ∈ words)
    (front back : List Bool) (out : Bytes) (room : 11 * list.length ≤ back.length) :
    ∃ out', setWords words list front.length (front ++ back) out =
      .ok (some (front ++ (list.map words.idxOf).flatMap (low 11) ++
        back.drop (11 * list.length)), out') := by
  induction list generalizing front back out with
  | nil => exact ⟨out, by simp [setWords]⟩
  | cons w list ih =>
    rw [List.length_cons] at room ⊢
    have room' : 11 * list.length ≤ (back.drop 11).length := by
      rw [List.length_drop]
      omega
    obtain ⟨out', next⟩ := ih (fun v member => known v (List.mem_cons_of_mem w member))
      (front ++ low 11 (words.idxOf w)) (back.drop 11)
      (out ++ Bytes.decimal (words.idxOf w) ++ [10]) room'
    refine ⟨out', ?_⟩
    rw [setWords_cons_of_le (known w List.mem_cons_self) list front (by omega), next,
      List.map_cons, List.flatMap_cons, List.drop_drop, List.append_assoc front, Nat.mul_succ,
      Nat.add_comm 11]

theorem setWords_pastEnd (words : List Bytes) {list : List Bytes} (known : ∀ w ∈ list, w ∈ words)
    (front back : List Bool) (out : Bytes) (full : back.length < 11 * list.length) :
    setWords words list front.length (front ++ back) out = .error .pastEnd := by
  induction list generalizing front back out with
  | nil => exact absurd full (Nat.not_lt_zero _)
  | cons w list ih =>
    rw [List.length_cons] at full
    have here := known w List.mem_cons_self
    by_cases room : 11 ≤ back.length
    · rw [setWords_cons_of_le here list front room]
      apply ih
      · intro v member
        exact known v (List.mem_cons_of_mem w member)
      · rw [List.length_drop]
        omega
    · rw [setWords_cons here, setWord_pastEnd 11 _ front back (by omega), Cpp.error_bind]

/-! ## Reading words -/

theorem getWord_eq {bits : List Bool} (left : Nat) {n idx m : Nat} (below : m < 2 ^ n)
    (there : idx + left ≤ bits.length) :
    getWord bits left n idx m = .ok (m + 2 ^ n * number ((bits.drop idx).take left)) := by
  induction left generalizing n idx m with
  | zero => simp [getWord]
  | succ left ih =>
    have inside : idx < bits.length := by omega
    have below' : m + 2 ^ n * bits[idx].toNat < 2 ^ (n + 1) := by
      rw [pow_succ]
      have := Nat.mul_le_mul_left (2 ^ n) bits[idx].toNat_le
      omega
    rw [getWord, Cpp.index_of_lt inside, Cpp.ok_bind, or_shiftLeft_toNat below,
      ih below' (by omega), List.drop_eq_getElem_cons inside, List.take_succ_cons, number_cons]
    congr 1
    ring

theorem getWords_eq (file : WordFile) {bits : List Bool} (left i : Nat)
    (there : 11 * (i + left) ≤ bits.length) :
    getWords file.words bits left (11 * i) =
      .ok ((List.range' i left).map fun j => file.words.getD (number (field 11 bits j)) []) := by
  induction left generalizing i with
  | zero => rfl
  | succ left ih =>
    have inside : 11 * i + 11 ≤ bits.length := by omega
    have read : getWord bits 11 0 (11 * i) 0 = _ := getWord_eq 11 (by decide) inside
    rw [pow_zero, Nat.one_mul, Nat.zero_add] at read
    have small : number (field 11 bits i) < file.words.length := by
      rw [file.length_words]
      refine (number_lt _).trans_le (Nat.pow_le_pow_right (by decide) ?_)
      exact List.length_take_le _ _
    have next := ih (i + 1) (by omega)
    rw [Nat.mul_succ] at next
    rw [getWords, read, Cpp.ok_bind]
    change (Cpp.index file.words (number (field 11 bits i)) >>= _) = _
    rw [Cpp.index_of_lt small, Cpp.ok_bind, next, Cpp.ok_bind, List.range'_succ, List.map_cons,
      List.getD_eq_getElem _ _ small]
    rfl

/-! ## Both ways -/

def bitsOf (words list : List Bytes) : List Bool :=
  (list.map words.idxOf).flatMap (low 11) ++ List.replicate (11 * 24 - 11 * list.length) false

theorem length_bitsOf {words list : List Bytes} (fits : list.length ≤ 24) :
    (bitsOf words list).length = 11 * 24 := by
  unfold bitsOf
  rw [List.length_append, length_flatMap_low, List.length_map, List.length_replicate]
  omega

/-- The words that worddec prints for a list: behind it, the first word of the file. -/
def readWords (words list : List Bytes) : List Bytes :=
  list ++ List.replicate (24 - list.length) (words.getD 0 [])

theorem getWords_bitsOf (file : WordFile) {list : List Bytes}
    (known : ∀ w ∈ list, w ∈ file.words) (fits : list.length ≤ 24) :
    getWords file.words (bitsOf file.words list) 24 0 = .ok (readWords file.words list) := by
  have whole : 11 * (0 + 24) ≤ (bitsOf file.words list).length := by
    rw [length_bitsOf fits]
  have read := getWords_eq file 24 0 whole
  have small : ∀ n ∈ list.map file.words.idxOf, n < 2 ^ 11 := by
    intro n member
    obtain ⟨w, listed, rfl⟩ := List.mem_map.mp member
    rw [← file.length_words]
    exact List.idxOf_lt_length_of_mem (known w listed)
  rw [Nat.mul_zero] at read
  rw [read]
  congr 1
  apply List.ext_getElem?
  intro j
  unfold readWords bitsOf
  rw [List.getElem?_map]
  rcases Nat.lt_or_ge j 24 with inside | outside
  · rw [List.getElem?_range' inside, Option.map_some, Nat.zero_add, Nat.one_mul,
      number_field 11 small]
    rcases Nat.lt_or_ge j list.length with listed | unlisted
    · have found := List.idxOf_lt_length_of_mem (known _ (List.getElem_mem listed))
      rw [List.getElem?_append_left listed, List.getElem?_eq_getElem listed]
      simp [List.getElem?_eq_getElem listed, List.getElem?_eq_getElem found]
    · rw [List.getElem?_append_right unlisted, List.getElem?_replicate, if_pos (by omega)]
      simp [List.getElem?_eq_none unlisted]
  · rw [List.getElem?_eq_none (by simpa using outside), List.getElem?_eq_none]
    · rfl
    · rw [List.length_append, List.length_replicate]
      omega

theorem readWords_eq_iff (words : List Bytes) {list : List Bytes} (fits : list.length ≤ 24) :
    readWords words list = list ↔ list.length = 24 := by
  constructor
  · intro same
    have length := congrArg List.length same
    unfold readWords at length
    rw [List.length_append, List.length_replicate] at length
    omega
  · intro full
    unfold readWords
    rw [full, Nat.sub_self, List.replicate_zero, List.append_nil]

theorem lastLine_append (front : Bytes) {line : Bytes} (one : ∀ c ∈ line, c ≠ 10) :
    lastLine (front ++ [10] ++ line ++ [10]) = line := by
  have member : ∀ c ∈ line.reverse, c ≠ 10 := by
    intro c within
    exact one c (List.mem_reverse.mp within)
  unfold lastLine
  rw [List.dropLast_concat, List.reverse_append, List.reverse_concat,
    Bytes.takeWhile_ne_append member, List.reverse_reverse]

theorem ne_newline_of_mem_fields {a b : Bytes} {c : UInt8}
    (member : c ∈ Bytes.put a ++ [32] ++ Bytes.put b) : c ≠ 10 := by
  have printed : ∀ b, (10 : UInt8) ∉ Bytes.put b := by
    intro b within
    rcases Bytes.eq_zero_or_blank_lt_of_mem_put within with nul | digit
    · exact absurd nul (by decide)
    · exact absurd digit (by decide)
  simp only [List.mem_append, List.mem_singleton] at member
  rintro rfl
  rcases member with (message | blank) | salt
  · exact printed a message
  · exact absurd blank (by decide)
  · exact printed b salt

section Tools

variable {G P file} {list : List Bytes} (passB saltB : Bytes)

theorem encodeWords_pastEnd (known : ∀ w ∈ list, w ∈ file.words) (full : 24 < list.length) :
    encodeWords G P file list passB saltB = .error .pastEnd := by
  have stopped := setWords_pastEnd file.words known [] (List.replicate (11 * 24) false) []
    (by rw [List.length_replicate]; omega)
  rw [List.length_nil, List.nil_append] at stopped
  unfold encodeWords
  rw [stopped, Cpp.error_bind]

def wordCipher (G : GenericHash) (P : PwHash) (file : WordFile) (list : List Bytes)
    (passB saltB : Bytes) : Bytes :=
  padded (G := G) (passwordHash G P passB saltB) (pack (bitsOf file.words list))

theorem length_pack_bitsOf {words : List Bytes} (fits : list.length ≤ 24) :
    (pack (bitsOf words list)).length < 2 ^ 31 := by
  rw [length_pack, length_bitsOf fits]
  decide

theorem encodeWords_eq (known : ∀ w ∈ list, w ∈ file.words) (fits : list.length ≤ 24) :
    ∃ out, encodeWords G P file list passB saltB =
      .ok (0, out ++ bitsetLines (bitsOf file.words list) (pack (bitsOf file.words list)) ++
        printEncrypted (wordCipher G P file list passB saltB, saltB)) := by
  obtain ⟨out, written⟩ := setWords_eq file.words known [] (List.replicate (11 * 24) false) []
    (by rw [List.length_replicate]; omega)
  rw [List.length_nil, List.nil_append, List.nil_append, List.drop_replicate] at written
  have packed : Bytes.ofBitset (bitsOf file.words list) = .ok (pack (bitsOf file.words list)) :=
    Bytes.ofBitset_of_whole (by rw [length_bitsOf fits])
  refine ⟨out, ?_⟩
  unfold encodeWords
  rw [written, Cpp.ok_bind]
  change (Bytes.ofBitset (bitsOf file.words list) >>= _) = _
  rw [packed, Cpp.ok_bind, encrypt_of_lt_int (length_pack_bitsOf fits)]
  rfl

theorem lastLine_printed (out : Bytes) (bits : List Bool) (msgB a b : Bytes) :
    lastLine (out ++ bitsetLines bits msgB ++ printEncrypted (a, b)) =
      Bytes.put a ++ [32] ++ Bytes.put b := by
  have last := lastLine_append (out ++ (Bytes.decimal bits.length ++ [10] ++
    Bytes.bitsetText bits ++ [10] ++ Bytes.decimal msgB.length ++ [10] ++ Bytes.put msgB))
    (fun c => ne_newline_of_mem_fields (a := a) (b := b))
  rw [← last]
  unfold bitsetLines printEncrypted
  simp only [List.append_assoc]

theorem worddec_eq (name password line : Bytes) (known : ∀ w ∈ list, w ∈ file.words)
    (fits : list.length ≤ 24)
    (fields : line = Bytes.put (wordCipher G P file list (Bytes.ofCString password) saltB) ++
      [32] ++ Bytes.put saltB) :
    ∃ report, report ≠ [] ∧
      worddec G P file [name, messageField line, saltField line, password] =
        .ok (0, ⟨report, readWords file.words list⟩) := by
  have whole : (bitsOf file.words list).length % 8 = 0 := by rw [length_bitsOf fits]
  obtain ⟨lines, read⟩ := Bytes.bitset_pack whole
  rw [length_bitsOf fits] at read
  have message := ofCString_messageField
    (wordCipher G P file list (Bytes.ofCString password) saltB) saltB []
  have salt := ofCString_saltField
    (wordCipher G P file list (Bytes.ofCString password) saltB) saltB []
  rw [List.append_nil, ← fields] at message salt
  have decrypted : decrypt G P
      (Bytes.digits (wordCipher G P file list (Bytes.ofCString password) saltB))
      (Bytes.digits saltB) (Bytes.ofCString password) = .ok (pack (bitsOf file.words list)) :=
    decrypt_digits (length_pack_bitsOf fits) _ _
  refine ⟨Bytes.put (pack (bitsOf file.words list)) ++ [10] ++ lines ++
    Bytes.bitsetText (bitsOf file.words list) ++ [10], by simp, ?_⟩
  simp only [worddec, message, salt, decrypted, Cpp.ok_bind, read,
    getWords_bitsOf file known fits]
  rfl

end Tools

/-! ## Lists of twenty-four words -/

/-- Run on the last line that wordenc printed, worddec printed this. -/
def Decoded (encoded : Cpp (Int × Bytes)) (name password : Bytes) (printed : Worddec) : Prop :=
  ∃ out, encoded = .ok (0, out) ∧
    worddec G P file [name, messageField (lastLine out), saltField (lastLine out), password] =
      .ok (0, printed)

variable {G P file}

theorem wordenc_eq (name password saltB : Bytes) {arguments : List Bytes}
    (nonempty : arguments ≠ []) :
    wordenc G P file (name :: password :: arguments) saltB =
      encodeWords G P file (arguments.map Bytes.ofCString) (Bytes.ofCString password) saltB := by
  cases arguments with
  | nil => exact absurd rfl nonempty
  | cons argument arguments => rfl

theorem decoded_of_le (name password saltB : Bytes) {list : List Bytes}
    (known : ∀ w ∈ list, w ∈ file.words) (fits : list.length ≤ 24) :
    ∃ report, report ≠ [] ∧
      Decoded G P file (encodeWords G P file list (Bytes.ofCString password) saltB) name password
        ⟨report, readWords file.words list⟩ := by
  obtain ⟨out, encoded⟩ := encodeWords_eq (G := G) (P := P) (Bytes.ofCString password) saltB
    known fits
  obtain ⟨report, nonempty, read⟩ := worddec_eq (G := G) (P := P) saltB name password _ known
    fits (lastLine_printed out (bitsOf file.words list) (pack (bitsOf file.words list)) _ _)
  exact ⟨report, nonempty, _, encoded, read⟩

theorem decoded_unique {encoded : Cpp (Int × Bytes)} {name password : Bytes}
    {printed printed' : Worddec} (first : Decoded G P file encoded name password printed)
    (second : Decoded G P file encoded name password printed') : printed = printed' := by
  obtain ⟨out, here, read⟩ := first
  obtain ⟨out', there, read'⟩ := second
  obtain ⟨-, rfl⟩ := Prod.mk.inj (Cpp.ok_unique here there)
  exact (Prod.mk.inj (Cpp.ok_unique read read')).2

theorem length_wordLines_le (list : List Bytes) (rest : List Bytes) :
    (wordLines list).length ≤ (wordLines (list ++ rest)).length := by
  unfold wordLines
  rw [List.flatMap_append, List.length_append]
  exact Nat.le_add_right _ _

/-- A list of known words stays inside the bit set when it has at most twenty-four, and
worddec prints it again when it has twenty-four. Its report stands before the words in
any case. -/
theorem wordenc_decoded_iff (name name' password saltB : Bytes) {arguments : List Bytes}
    (nonempty : arguments ≠ []) (known : ∀ a ∈ arguments, Bytes.ofCString a ∈ file.words) :
    (wordenc G P file (name :: password :: arguments) saltB ≠ .error .pastEnd ↔
      arguments.length ≤ 24) ∧
    ((∃ printed, Decoded G P file (wordenc G P file (name :: password :: arguments) saltB)
        name' password printed ∧ printed.words = arguments.map Bytes.ofCString) ↔
      arguments.length = 24) ∧
    ∀ printed, Decoded G P file (wordenc G P file (name :: password :: arguments) saltB)
      name' password printed → printed.stdout ≠ wordLines (arguments.map Bytes.ofCString) := by
  rw [wordenc_eq name password saltB nonempty]
  have length : (arguments.map Bytes.ofCString).length = arguments.length := List.length_map _
  have known' : ∀ w ∈ arguments.map Bytes.ofCString, w ∈ file.words := by
    intro w member
    obtain ⟨a, given, rfl⟩ := List.mem_map.mp member
    exact known a given
  rcases Nat.lt_or_ge 24 arguments.length with full | fits
  · have stopped := encodeWords_pastEnd (G := G) (P := P) (Bytes.ofCString password) saltB
      known' (by omega)
    have none : ∀ printed, ¬ Decoded G P file (encodeWords G P file
        (arguments.map Bytes.ofCString) (Bytes.ofCString password) saltB) name' password
        printed := by
      rintro printed ⟨out, encoded, -⟩
      rw [stopped] at encoded
      cases encoded
    refine ⟨iff_of_false (fun inside => inside stopped) (by omega), ?_, ?_⟩
    · refine iff_of_false ?_ (by omega)
      rintro ⟨printed, decoded, -⟩
      exact none printed decoded
    · intro printed decoded
      exact absurd decoded (none printed)
  · obtain ⟨report, reported, decoded⟩ := decoded_of_le (G := G) (P := P) name' password saltB
      known' (by omega)
    refine ⟨iff_of_true ?_ fits, ?_, ?_⟩
    · obtain ⟨out, encoded, -⟩ := decoded
      rw [encoded]
      nofun
    · rw [← length, ← readWords_eq_iff file.words (by omega)]
      constructor
      · rintro ⟨printed, decoded', same⟩
        obtain rfl := decoded_unique decoded decoded'
        exact same
      · intro same
        exact ⟨_, decoded, same⟩
    · intro printed decoded'
      obtain rfl := decoded_unique decoded decoded'
      intro same
      have lengths := congrArg List.length same
      have behind := length_wordLines_le (arguments.map Bytes.ofCString)
        (List.replicate (24 - (arguments.map Bytes.ofCString).length) (file.words.getD 0 []))
      have positive := List.length_pos_iff.mpr reported
      unfold Worddec.stdout readWords at lengths
      rw [List.length_append] at lengths
      simp only at lengths
      omega

def threeLetters (n : Nat) : Bytes :=
  [UInt8.ofNat (97 + n / 256), UInt8.ofNat (97 + n / 16 % 16), UInt8.ofNat (97 + n % 16)]

def WordFile.threeLetters : WordFile where
  words := (List.range (2 ^ 11)).map Pttp.threeLetters
  length_words := by rw [List.length_map, List.length_range]

theorem threeLetters_mem {n : Nat} (small : n < 2 ^ 11) :
    threeLetters n ∈ WordFile.threeLetters.words := by
  simp only [WordFile.threeLetters]
  exact List.mem_map_of_mem (List.mem_range.mpr small)

theorem ofCString_mem_threeLetters (n : Nat) :
    ∀ a ∈ List.replicate n [97, 97, 98], Bytes.ofCString a ∈ WordFile.threeLetters.words := by
  intro a given
  rw [List.eq_of_mem_replicate given]
  have word : Bytes.ofCString [97, 97, 98] = threeLetters 1 := by decide
  rw [word]
  exact threeLetters_mem (by decide)

theorem wordenc_decoded_full :
    ∃ printed, Decoded .polynomial .concatenation .threeLetters
      (wordenc .polynomial .concatenation .threeLetters
        ([119] :: [112] :: List.replicate 24 [97, 97, 98]) (List.replicate 8 1)) [119] [112]
        printed ∧
      printed.words = (List.replicate 24 [97, 97, 98]).map Bytes.ofCString :=
  (wordenc_decoded_iff [119] [119] [112] (List.replicate 8 1) (by decide)
    (ofCString_mem_threeLetters 24)).2.1.mpr rfl

theorem wordenc_decoded_twelve :
    ¬ ∃ printed, Decoded .polynomial .concatenation .threeLetters
      (wordenc .polynomial .concatenation .threeLetters
        ([119] :: [112] :: List.replicate 12 [97, 97, 98]) (List.replicate 8 1)) [119] [112]
        printed ∧
      printed.words = (List.replicate 12 [97, 97, 98]).map Bytes.ofCString := by
  have known : ∀ w ∈ (List.replicate 12 [97, 97, 98]).map Bytes.ofCString,
      w ∈ WordFile.threeLetters.words := by
    intro w member
    obtain ⟨a, given, rfl⟩ := List.mem_map.mp member
    exact ofCString_mem_threeLetters 12 a given
  obtain ⟨report, -, decoded⟩ := decoded_of_le (G := .polynomial) (P := .concatenation) [119]
    [112] (List.replicate 8 1) known (by decide)
  rw [wordenc_eq _ _ _ (by decide)]
  rintro ⟨printed, decoded', same⟩
  obtain rfl := decoded_unique decoded decoded'
  exact absurd ((readWords_eq_iff _ (by decide)).mp same) (by decide)

end Pttp
