import Mathlib
import TinyIsa.Proofs.Decoding
import TinyIsa.Proofs.Source.Resolve

/-!
# Assembled addresses are fetch addresses

Three computations have to agree on the size of an instruction: the one that gives addresses
(`Instruction.wordCount`), the one that writes digits (`Instruction.code`) and the one that reads
them (`Instruction.ofMemory`).

* `code_spec`: the digits of an instruction fill its words.
* `slice_flatten`: the digits of an instruction stand behind the words of those before it.
* `ofMemory_decoded`: where the digits of an instruction stand it is fetched.
* `loaded_fetch`: **every instruction of a loaded program is fetched at its address.**
-/

namespace TinyIsa

open InstructionSet

variable {Op : Type} [InstructionSet Op]

/-! ### The digits of a program -/

theorem Binary.filter_isBlank {s : List Char} (h : Binary s) : s.filter (!Text.isBlank ·) = s := by
  rw [List.filter_eq_self]
  intro c hc
  rcases eq_of_isBinary (h c hc) with rfl | rfl <;> decide

/-- **The digits of an instruction fill its words.** -/
theorem code_spec [Lawful Op] {i : Instruction Op} {code : List Char} (h : i.code = .ok code) :
    Binary code ∧ code.length = i.wordCount * wordSize Op := by
  obtain ⟨body, labels, comment, line, address⟩ := i
  change body.code = .ok code at h
  change Binary code ∧ code.length = body.wordCount * wordSize Op
  cases body with
  | operation op args => exact ⟨Lawful.binary_encode h, Lawful.length_encode h⟩
  | data values =>
    obtain ⟨rows, hrows, rfl⟩ := map_eq_ok.1 h
    have hrow : ∀ row ∈ rows, Binary row ∧ row.length = wordSize Op := by
      intro row hrow
      obtain ⟨arg, -, harg⟩ := exists_of_mem_mapM hrows hrow
      obtain ⟨v, -, rfl⟩ := map_eq_ok.1 harg
      exact ⟨Word.binary_toDigits _, Word.length_toDigits _⟩
    have hlen : (rows.flatMap id).length = rows.length * wordSize Op :=
      length_flatMap_of_length fun row hr => (hrow row hr).2
    rw [List.flatMap_id] at hlen
    refine ⟨binary_flatten fun row hr => (hrow row hr).1, ?_⟩
    rw [hlen, ← (mapM_eq_ok.1 hrows).length_eq]
    rfl
  | remark =>
    obtain rfl : [] = code := Except.ok.inj h
    exact ⟨binary_nil, (Nat.zero_mul _).symm⟩

section

variable [Lawful Op] {p : List (Instruction Op)} {codes : List (List Char)}

theorem binary_codes (h : p.mapM Instruction.code = .ok codes) : Binary codes.flatten := by
  refine binary_flatten fun c hc => ?_
  obtain ⟨i, -, hi⟩ := exists_of_mem_mapM h hc
  exact (code_spec hi).1

theorem length_codes (h : p.mapM Instruction.code = .ok codes) :
    codes.flatten.length = totalWords p * wordSize Op := by
  replace h := mapM_eq_ok.1 h
  induction h with
  | nil => exact (Nat.zero_mul _).symm
  | cons hc _ ih =>
    rw [List.flatten_cons, List.length_append, (code_spec hc).2, ih, totalWords_cons, Nat.add_mul]

/-- **The digits of an instruction stand behind the words of those before it.** -/
theorem slice_flatten (h : p.mapM Instruction.code = .ok codes) {k : ℕ} {i : Instruction Op}
    (hk : p[k]? = some i) : ∃ code, i.code = .ok code ∧
      (codes.flatten.drop (totalWords (p.take k) * wordSize Op)).take (i.wordCount * wordSize Op) = code ∧
      totalWords (p.take k) + i.wordCount ≤ totalWords p := by
  replace h := mapM_eq_ok.1 h
  induction h generalizing k with
  | nil => exact absurd hk (by simp)
  | @cons i₀ c p codes hc _ ih =>
    have hlen := (code_spec hc).2
    cases k with
    | zero =>
      obtain rfl : i₀ = i := Option.some.inj hk
      refine ⟨c, hc, ?_, ?_⟩
      · rw [List.take_zero, List.flatten_cons]
        change ((c ++ codes.flatten).drop (0 * _)).take _ = c
        rw [Nat.zero_mul, List.drop_zero, List.take_left' hlen]
      · rw [List.take_zero, totalWords_cons]
        exact (Nat.zero_add _).le.trans (Nat.le_add_right _ _)
    | succ k =>
      -- the digits of the first instruction are dropped together with its words
      obtain ⟨code, hcode, hslice, hle⟩ := ih hk
      refine ⟨code, hcode, ?_, ?_⟩
      · rw [List.take_succ_cons, totalWords_cons, Nat.add_mul, ← hlen, List.flatten_cons, List.drop_append,
          List.drop_of_length_le (by omega), List.nil_append, Nat.add_sub_cancel_left]
        exact hslice
      · rw [List.take_succ_cons, totalWords_cons, totalWords_cons]
        omega

/-- The words of an instruction lie within those of the program, whatever stands behind them. -/
theorem slice_words (h : p.mapM Instruction.code = .ok codes) {words : List Word}
    (hdigits : words.flatMap Word.toDigits = codes.flatten) (hwidth : ∀ w ∈ words, w.width = wordSize Op)
    (hlen : words.length = totalWords p) (blanks : List Word) {k : ℕ} {i : Instruction Op}
    (hk : p[k]? = some i) : ∃ code, i.code = .ok code ∧
      (((words ++ blanks).drop (totalWords (p.take k))).take i.wordCount).flatMap Word.toDigits = code ∧
      totalWords (p.take k) + i.wordCount ≤ totalWords p := by
  obtain ⟨code, hcode, hslice, hend⟩ := slice_flatten h hk
  have hroom : i.wordCount ≤ (words.drop (totalWords (p.take k))).length := by
    rw [List.length_drop]
    omega
  refine ⟨code, hcode, ?_, hend⟩
  rw [List.drop_append_of_le_length (by omega), List.take_append_of_le_length hroom,
    flatMap_slice fun w hw => (Word.length_toDigits w).trans (hwidth w hw), hdigits]
  exact hslice

end

/-! ### Fetching -/

/-- **Where the digits of an instruction stand it is fetched**, with the arguments that they spell. -/
theorem ofMemory_decoded [Lawful Op] {memory : Array Word} {address : ℕ} {op : Op}
    {args args' : List String} {code : List Char} (he : encode op args = .ok code)
    (hd : decode op code = .ok args') (hwidth : ∀ w ∈ memory, w.width = wordSize Op)
    (hcode : ((memory.toList.drop address).take (words op)).flatMap Word.toDigits = code) :
    Instruction.ofMemory memory address =
      .ok { Instruction.ofOp op args' with address := some address } := by
  have hslice : ((memory.toList.drop address).flatMap Word.toDigits).take (words op * wordSize Op) =
      code := by
    rw [← hcode, flatMap_take fun w hw => (Word.length_toDigits w).trans
      (hwidth w (Array.mem_toList_iff.1 (List.mem_of_mem_drop hw)))]
  -- nothing is missing of the instruction
  have hdigits : (List.range (words op)).flatMap (fun k =>
      (Instruction.cell Op memory (address + k)).toDigits) = code := by
    rw [Instruction.flatMap_cell hwidth, hslice, ← Lawful.length_encode he]
    simp [List.rightpad]
  -- the first word has the first digits, and with them the opcode
  have hfirst : Instruction.cell Op memory address =
      Word.valueOf (wordSize Op) (code.take (wordSize Op)) := by
    rw [Instruction.cell_eq_valueOf hwidth, ← hslice, List.take_take,
      Nat.min_eq_left (Nat.le_mul_of_pos_left _ (Lawful.words_pos op))]
  unfold Instruction.ofMemory
  rw [hfirst, lookup_encode he]
  refine bind_eq_ok.2 ⟨op, rfl, bind_eq_ok.2 ⟨args', ?_, rfl⟩⟩
  rw [hdigits]
  exact hd

/-- The arguments that are fetched have the same digits. -/
theorem ofMemory_encoded [Lawful Op] {memory : Array Word} {address : ℕ} {op : Op} {args : List String}
    {code : List Char} (ha : accepts op args = true) (he : encode op args = .ok code)
    (hwidth : ∀ w ∈ memory, w.width = wordSize Op)
    (hcode : ((memory.toList.drop address).take (words op)).flatMap Word.toDigits = code) :
    ∃ args', Instruction.ofMemory memory address =
        .ok { Instruction.ofOp op args' with address := some address } ∧ encode op args' = .ok code := by
  obtain ⟨args', hd, he'⟩ := Lawful.encode_decode ha he
  exact ⟨args', ofMemory_decoded he hd hwidth hcode, he'⟩

/-! ### Loading -/

section

variable {σ : Type} {m m' : Machine Op σ} {p : List (Instruction Op)}

/-- **What loading installs**: words with the digits of the instructions, as many as these ask for. -/
theorem loadProgram_words [Lawful Op] (h : m.loadProgram p = (.ok (), m')) :
    ∃ codes words, p.mapM Instruction.code = .ok codes ∧ words.flatMap Word.toDigits = codes.flatten ∧
      (∀ w ∈ words, w.width = wordSize Op) ∧ words.length = totalWords p ∧
      words.length ≤ m.memory.size ∧ m.install words = m' := by
  obtain ⟨code, hcode, hload⟩ := Machine.loadProgram_eq_ok.1 h
  obtain ⟨codes, hcodes, rfl⟩ := map_eq_ok.1 hcode
  obtain ⟨words, hwords, hinstall⟩ := Machine.loadCode_eq_ok.1 hload
  obtain ⟨hroom, hwidth, hdigits⟩ := (Machine.image_eq_ok Lawful.wordSize_pos).1 hwords
  rw [(binary_codes hcodes).filter_isBlank] at hdigits
  have hlen : words.length * wordSize Op = totalWords p * wordSize Op := by
    rw [← length_codes hcodes, ← hdigits,
      length_flatMap_of_length fun w hw => (Word.length_toDigits w).trans (hwidth w hw)]
  exact ⟨codes, words, hcodes, hdigits, hwidth,
    Nat.eq_of_mul_eq_mul_right Lawful.wordSize_pos hlen, hroom, hinstall⟩

theorem memory_install (m : Machine Op σ) (words : List Word) : (m.install words).memory =
    (words ++ List.replicate (m.memory.size - words.length) (blankWord Op)).toArray := rfl

end

/-- **Every instruction of a loaded program is fetched at its address.** For every source text and
every machine: the loaded size is that of the program, the cells behind it are zero, the words from
the address of an instruction on have its digits, and from an operation there the same operation is
fetched, with arguments that are encoded in the same way. -/
theorem loaded_fetch (a : Architecture) {σ : Type} {m m' : Machine a.Op σ} {source : List Char}
    {q : List (Instruction a.Op)} (hq : parse source true = .ok q) (hm : m.loadProgram q = (.ok (), m')) :
    m'.loaded = totalWords q ∧ m'.memory.size = m.memory.size ∧
      (∀ x, totalWords q ≤ x → x < m'.memory.size → m'.memory[x]? = some (blankWord a.Op)) ∧
      ∀ i ∈ q, ∃ address code, i.address = some address ∧ i.code = .ok code ∧
        address + i.wordCount ≤ m'.memory.size ∧
        ((m'.memory.toList.drop address).take i.wordCount).flatMap Word.toDigits = code ∧
        ∀ op args, i.body = .operation op args → ∃ args', Instruction.ofMemory m'.memory address =
          .ok { Instruction.ofOp op args' with address := some address } ∧ encode op args' = .ok code := by
  obtain ⟨codes, words, hcodes, hdigits, hwidth, hlen, hroom, rfl⟩ := loadProgram_words hm
  rw [memory_install]
  have hsize : (words ++ List.replicate (m.memory.size - words.length) (blankWord a.Op)).toArray.size =
      m.memory.size := by
    simp only [List.size_toArray, List.length_append, List.length_replicate]
    omega
  refine ⟨hlen, hsize, ?_, ?_⟩
  · intro x h1 h2
    rw [hsize] at h2
    rw [List.getElem?_toArray, List.getElem?_append_right (by omega), List.getElem?_replicate,
      if_pos (by omega)]
  · intro i hi
    obtain ⟨k, hk⟩ := List.mem_iff_getElem?.1 hi
    obtain ⟨haddress, haccepts⟩ := address_of_parse hq hk
    obtain ⟨code, hcode, hwords, hend⟩ := slice_words hcodes hdigits hwidth hlen
      (List.replicate (m.memory.size - words.length) (blankWord a.Op)) hk
    refine ⟨_, code, haddress, hcode, by omega, hwords, ?_⟩
    intro op args hb
    have hcount : i.wordCount = InstructionSet.words op := by
      unfold Instruction.wordCount
      rw [hb]
      rfl
    have hencode : encode op args = .ok code := by
      unfold Instruction.code at hcode
      rw [hb] at hcode
      exact hcode
    rw [hcount] at hwords hend
    refine ofMemory_encoded (haccepts op args hb) hencode ?_ hwords
    intro w hw
    rcases List.mem_append.1 (List.mem_toArray.1 hw) with hw | hw
    · exact hwidth w hw
    · rw [(List.mem_replicate.1 hw).2]
      rfl

/-- A branch forward over a remark, and data that names its own address. -/
theorem loaded_fetch_forward :
    ∃ (q : List (Instruction Architecture.tally.Op)) (m' : Machine Architecture.tally.Op Silence),
      parse "bnz &b\n; go\n\nb: .word &b, 3\n".toList true = .ok q ∧
      (Machine.new .silence).loadProgram q = (.ok (), m') ∧ m'.loaded = totalWords q ∧
      m'.memory.size = (Machine.new Silence.silence : Machine Architecture.tally.Op Silence).memory.size ∧
      (∀ x, totalWords q ≤ x → x < m'.memory.size →
        m'.memory[x]? = some (blankWord Architecture.tally.Op)) ∧
      ∀ i ∈ q, ∃ address code, i.address = some address ∧ i.code = .ok code ∧
        address + i.wordCount ≤ m'.memory.size ∧
        ((m'.memory.toList.drop address).take i.wordCount).flatMap Word.toDigits = code ∧
        ∀ op args, i.body = .operation op args → ∃ args', Instruction.ofMemory m'.memory address =
          .ok { Instruction.ofOp op args' with address := some address } ∧ encode op args' = .ok code := by
  have hparse : parse "bnz &b\n; go\n\nb: .word &b, 3\n".toList true =
      (.ok [{ body := .operation .bnz ["1"], line := 1, address := some 0 },
        { body := .remark, comment := some "go", line := 4, address := some 1 },
        { body := .data ["1", "3"], labels := [⟨"b", 4⟩], line := 4, address := some 1 }] :
        Except ParseError (List (Instruction Tally.Op))) := by cbv
  have hload : (Machine.new Silence.silence : Machine Tally.Op Silence).loadProgram
      [{ body := .operation .bnz ["1"], line := 1, address := some 0 },
        { body := .remark, comment := some "go", line := 4, address := some 1 },
        { body := .data ["1", "3"], labels := [⟨"b", 4⟩], line := 4, address := some 1 }] =
      (.ok (), (Machine.new Silence.silence).install [⟨8, 0x81⟩, ⟨8, 0x01⟩, ⟨8, 0x03⟩]) := by
    refine Machine.loadProgram_eq_ok.2 ⟨"100000010000000100000011".toList, by cbv, ?_⟩
    exact Machine.loadCode_eq_ok.2 ⟨_, (Machine.image_eq_ok (by decide)).2
      ⟨by decide, by decide, by decide⟩, rfl⟩
  exact ⟨_, _, hparse, hload, loaded_fetch .tally hparse hload⟩

end TinyIsa
