import Mathlib.Data.Nat.Digits.Defs
import Aesd.Server.Appends

/-!
# Which packets are seek commands

`sscanf` looks for a text at the beginning of the packet: what follows the second number does not
matter, and the numbers may have blanks and a sign in front and be of any size.
`seekCommand_iff` says which packets `write_new_packet` takes for a seek command
(`SeekText`), and with which values; `System.seek_recognised` says what becomes of either kind.
-/

set_option autoImplicit false

namespace Aesd

/-! ## Numbers -/

/-- The text that `%u` takes for a number: blanks, a sign, digits. -/
def Numeral (text : List Byte) (value : UInt32) : Prop :=
  ∃ blanks sign digits, text = blanks ++ (sign ++ digits) ∧ (∀ c ∈ blanks, isSpace c = true) ∧
    (sign = [] ∨ sign = [43] ∨ sign = [45]) ∧ digits ≠ [] ∧ (∀ c ∈ digits, isDigit c = true) ∧
    value = if sign = [45] then -UInt32.ofNat (decimal digits) else UInt32.ofNat (decimal digits)

/-- The text does not start with a digit. -/
def NoDigit (text : List Byte) : Prop := ∀ c ∈ text.head?, isDigit c = false

theorem isDigit_iff {c : Byte} : isDigit c = true ↔ 48 ≤ c.toNat ∧ c.toNat ≤ 57 := by
  rw [isDigit, Bool.and_eq_true, decide_eq_true_eq, decide_eq_true_eq, UInt8.le_iff_toNat_le,
    UInt8.le_iff_toNat_le]
  rfl

theorem isSpace_iff {c : Byte} :
    isSpace c = true ↔ c.toNat = 32 ∨ 9 ≤ c.toNat ∧ c.toNat ≤ 13 := by
  rw [isSpace, Bool.or_eq_true, Bool.and_eq_true, decide_eq_true_eq, decide_eq_true_eq, beq_iff_eq,
    ← UInt8.toNat_inj, UInt8.le_iff_toNat_le, UInt8.le_iff_toNat_le]
  rfl

theorem isSpace_of_isDigit {c : Byte} (h : isDigit c = true) : isSpace c = false := by
  rw [isDigit_iff] at h
  rw [Bool.eq_false_iff, ne_eq, isSpace_iff]
  omega

theorem ne_zero_of_isDigit {c : Byte} (h : isDigit c = true) : c ≠ 0 := by
  rintro rfl
  cases h

theorem ne_zero_of_isSpace {c : Byte} (h : isSpace c = true) : c ≠ 0 := by
  rintro rfl
  cases h

theorem ne_sign_of_isDigit {c : Byte} (h : isDigit c = true) : c ≠ 43 ∧ c ≠ 45 := by
  constructor <;> rintro rfl <;> cases h

section Lists

variable {α : Type} {p : α → Bool} {a b : List α}

/-- What is skipped is all that satisfies `p`, and no more. -/
theorem dropWhile_append_of_head (ha : ∀ x ∈ a, p x = true) (hb : ∀ x ∈ b.head?, p x = false) :
    (a ++ b).dropWhile p = b := by
  rw [List.dropWhile_append_of_pos ha]
  cases b with
  | nil => rfl
  | cons x b => rw [List.dropWhile_cons_of_neg (by simp [hb x rfl])]

theorem takeWhile_append_of_head (ha : ∀ x ∈ a, p x = true) (hb : ∀ x ∈ b.head?, p x = false) :
    (a ++ b).takeWhile p = a := by
  rw [List.takeWhile_append_of_pos ha]
  cases b with
  | nil => simp
  | cons x b => rw [List.takeWhile_cons_of_neg (by simp [hb x rfl]), List.append_nil]

theorem head?_dropWhile_eq_false (l : List α) : ∀ x ∈ (l.dropWhile p).head?, p x = false := by
  intro x hx
  have h := List.head?_dropWhile_not p l
  rw [Option.mem_def.1 hx] at h
  simpa using h

end Lists

theorem scanSign_append {sign digits : List Byte} (hsign : sign = [] ∨ sign = [43] ∨ sign = [45])
    (hne : digits ≠ []) (hd : ∀ c ∈ digits, isDigit c = true) (rest : List Byte) :
    scanSign (sign ++ (digits ++ rest)) = (decide (sign = [45]), digits ++ rest) := by
  rcases hsign with rfl | rfl | rfl
  · cases digits with
    | nil => exact absurd rfl hne
    | cons c digits =>
      obtain ⟨h43, h45⟩ := ne_sign_of_isDigit (hd c (List.mem_cons_self ..))
      show scanSign (c :: (digits ++ rest)) = _
      rw [scanSign]
      · rfl
      · exact fun input h ↦ h43 (List.cons.inj h).1
      · exact fun input h ↦ h45 (List.cons.inj h).1
  · rfl
  · rfl

/-- What is taken for the sign. -/
theorem scanSign_cases (input : List Byte) : ∃ sign, (sign = [] ∨ sign = [43] ∨ sign = [45]) ∧
    input = sign ++ (scanSign input).2 ∧ (scanSign input).1 = decide (sign = [45]) := by
  unfold scanSign
  split
  · exact ⟨[43], by simp, rfl, rfl⟩
  · exact ⟨[45], by simp, rfl, rfl⟩
  · exact ⟨[], by simp, rfl, rfl⟩

/-- **What `%u` reads.** -/
theorem scanUnsigned_iff {input rest : List Byte} {value : UInt32} :
    scanUnsigned input = some (value, rest) ↔
      ∃ text, input = text ++ rest ∧ Numeral text value ∧ NoDigit rest := by
  constructor
  · intro h
    obtain ⟨sign, hsign, hinput, hminus⟩ := scanSign_cases (input.dropWhile isSpace)
    rw [scanUnsigned] at h
    generalize hscan : scanSign (input.dropWhile isSpace) = x at h hinput hminus
    obtain ⟨minus, after⟩ := x
    simp only at h hinput hminus
    split at h
    · cases h
    rename_i hne
    simp only [Option.some.injEq, Prod.mk.injEq] at h
    obtain ⟨rfl, rfl⟩ := h
    refine ⟨input.takeWhile isSpace ++ (sign ++ after.takeWhile isDigit), ?_, ?_,
      head?_dropWhile_eq_false after⟩
    · rw [List.append_assoc, List.append_assoc, List.takeWhile_append_dropWhile, ← hinput,
        List.takeWhile_append_dropWhile]
    · refine ⟨_, sign, _, rfl, fun c hc ↦ List.mem_takeWhile_imp hc, hsign, hne,
        fun c hc ↦ List.mem_takeWhile_imp hc, ?_⟩
      rw [hminus]
      simp only [decide_eq_true_eq]
  · rintro ⟨_, rfl, ⟨blanks, sign, digits, rfl, hblanks, hsign, hne, hd, rfl⟩, hrest⟩
    have hhead : ∀ c ∈ (sign ++ (digits ++ rest)).head?, isSpace c = false := by
      intro c hc
      rcases hsign with rfl | rfl | rfl
      · cases digits with
        | nil => exact absurd rfl hne
        | cons d digits =>
          obtain rfl : d = c := by simpa using hc
          exact isSpace_of_isDigit (hd d (List.mem_cons_self ..))
      · obtain rfl : 43 = c := by simpa using hc
        decide
      · obtain rfl : 45 = c := by simpa using hc
        decide
    have hskip : (blanks ++ (sign ++ digits) ++ rest).dropWhile isSpace
        = sign ++ (digits ++ rest) := by
      rw [List.append_assoc, List.append_assoc]
      exact dropWhile_append_of_head hblanks hhead
    simp only [scanUnsigned, hskip, scanSign_append hsign hne hd, takeWhile_append_of_head hd hrest,
      dropWhile_append_of_head hd hrest, if_neg hne, decide_eq_true_eq]

theorem scanLiteral_iff {literal input rest : List Byte} :
    scanLiteral literal input = some rest ↔ input = literal ++ rest := by
  rw [scanLiteral]
  split
  · rename_i h
    obtain ⟨t, rfl⟩ := List.isPrefixOf_iff_prefix.1 h
    rw [List.drop_left, Option.some_inj, List.append_cancel_left_eq]
  · rename_i h
    simp only [reduceCtorEq, false_iff]
    rintro rfl
    exact h (List.isPrefixOf_iff_prefix.2 (List.prefix_append _ _))

/-! ## The seek command -/

/-- The packet begins like a seek command with these values. -/
def SeekText (packet : List Byte) (seekto : AesdSeekto) : Prop :=
  ∃ x y after, packet = seektoText ++ (x ++ ([44] ++ (y ++ after))) ∧
    Numeral x seekto.writeCmd ∧ Numeral y seekto.writeCmdOffset ∧ NoDigit after

theorem sscanfSeekto_iff {flatData : List Byte} {seekto : AesdSeekto} :
    sscanfSeekto flatData = (2, seekto) ↔ SeekText (flatData.takeWhile (· ≠ 0)) seekto := by
  obtain ⟨writeCmd, writeCmdOffset⟩ := seekto
  rw [sscanfSeekto]
  constructor
  · intro h
    split at h
    · cases h
    rename_i input htext
    split at h
    · cases h
    rename_i x input' hx
    split at h
    · cases h
    rename_i input'' hcomma
    split at h
    · cases h
    rename_i y after hy
    simp only [Prod.mk.injEq, true_and, AesdSeekto.mk.injEq] at h
    obtain ⟨rfl, rfl⟩ := h
    obtain ⟨xs, rfl, hxs, -⟩ := scanUnsigned_iff.1 hx
    obtain ⟨ys, rfl, hys, hafter⟩ := scanUnsigned_iff.1 hy
    rw [scanLiteral_iff] at htext hcomma
    exact ⟨xs, ys, after, by rw [htext, hcomma], hxs, hys, hafter⟩
  · rintro ⟨xs, ys, after, htext, hxs, hys, hafter⟩
    have hcomma : NoDigit ([44] ++ (ys ++ after)) := by
      intro c hc
      obtain rfl : 44 = c := by simpa using hc
      decide
    have hx : scanUnsigned (xs ++ ([44] ++ (ys ++ after)))
        = some (writeCmd, [44] ++ (ys ++ after)) := scanUnsigned_iff.2 ⟨xs, rfl, hxs, hcomma⟩
    have hy : scanUnsigned (ys ++ after) = some (writeCmdOffset, after) :=
      scanUnsigned_iff.2 ⟨ys, rfl, hys, hafter⟩
    simp only [scanLiteral_iff.2 htext, hx, scanLiteral_iff.2 rfl, hy]

/-- A number has no `NUL`. -/
theorem Numeral.ne_zero {text : List Byte} {value : UInt32} (h : Numeral text value) :
    ∀ c ∈ text, c ≠ 0 := by
  obtain ⟨blanks, sign, digits, rfl, hblanks, hsign, -, hd, -⟩ := h
  intro c hc
  rcases List.mem_append.1 hc with hc | hc
  · exact ne_zero_of_isSpace (hblanks c hc)
  rcases List.mem_append.1 hc with hc | hc
  · rcases hsign with rfl | rfl | rfl
    · cases hc
    · rw [List.mem_singleton.1 hc]; decide
    · rw [List.mem_singleton.1 hc]; decide
  · exact ne_zero_of_isDigit (hd c hc)

/-- A number ends in a digit. -/
theorem Numeral.getLast_isDigit {text : List Byte} {value : UInt32} (h : Numeral text value) :
    ∃ c, text.getLast? = some c ∧ isDigit c = true := by
  obtain ⟨blanks, sign, digits, rfl, -, -, hne, hd, -⟩ := h
  refine ⟨digits.getLast hne, ?_, hd _ (List.getLast_mem hne)⟩
  rw [List.getLast?_append_of_ne_nil _ (by simp [hne]), List.getLast?_append_of_ne_nil _ hne,
    List.getLast?_eq_getLast_of_ne_nil hne]

theorem seekCommand_eq_some {packet : List Byte} {seekto : AesdSeekto} :
    seekCommand packet = some seekto ↔
      SeekText (packet.dropLast.takeWhile (· ≠ 0)) seekto := by
  have hnul : (packet.dropLast ++ [0]).takeWhile (· ≠ 0) = packet.dropLast.takeWhile (· ≠ 0) := by
    rw [List.takeWhile_append]
    split
    · rename_i h
      rw [(List.takeWhile_prefix _).eq_of_length h, List.takeWhile_cons_of_neg (by simp),
        List.append_nil]
    · rfl
  rw [← hnul, ← sscanfSeekto_iff, seekCommand]
  generalize sscanfSeekto (packet.dropLast ++ [0]) = x
  obtain ⟨params, found⟩ := x
  simp only [Prod.mk.injEq]
  split
  · rename_i h
    rw [Option.some_inj]
    exact (and_iff_right h).symm
  · rename_i h
    simp [h]

/-- What `sscanf` looks at is enough to see it. -/
theorem SeekText.of_takeWhile {body tail : List Byte} {seekto : AesdSeekto}
    (h : SeekText (body.takeWhile (· ≠ 0)) seekto) (htail : NoDigit tail) :
    SeekText (body ++ tail) seekto := by
  obtain ⟨x, y, after, htext, hx, hy, hafter⟩ := h
  refine ⟨x, y, after ++ (body.dropWhile (· ≠ 0) ++ tail), ?_, hx, hy, ?_⟩
  · conv_lhs => rw [← List.takeWhile_append_dropWhile (p := (· ≠ 0)) (l := body), htext]
    simp only [List.append_assoc]
  · intro c hc
    cases after with
    | cons d after => exact hafter c hc
    | nil =>
      cases hdrop : body.dropWhile (· ≠ 0) with
      | nil =>
        rw [hdrop] at hc
        exact htail c hc
      | cons d rest =>
        rw [hdrop] at hc
        obtain rfl : d = c := by simpa using hc
        have hd := head?_dropWhile_eq_false (p := (· ≠ 0)) body d (by rw [hdrop]; rfl)
        obtain rfl : d = 0 := by simpa using hd
        decide

/-- And nothing else is. -/
theorem SeekText.takeWhile {body : List Byte} {b : Byte} {seekto : AesdSeekto}
    (h : SeekText (body ++ [b]) seekto) (hb : isDigit b = false) :
    SeekText (body.takeWhile (· ≠ 0)) seekto := by
  obtain ⟨x, y, after, htext, hx, hy, hafter⟩ := h
  obtain rfl | ⟨after, z, rfl⟩ := List.eq_nil_or_concat' after
  · -- the last byte is no digit, so something follows the second number
    obtain ⟨c, hc, hdigit⟩ := hy.getLast_isDigit
    have hne : y ≠ [] := by
      rintro rfl
      cases hc
    have hlast := congrArg List.getLast? htext
    rw [List.getLast?_concat, List.append_nil, List.getLast?_append_of_ne_nil _ (by simp),
      List.getLast?_append_of_ne_nil _ (by simp), List.getLast?_append_of_ne_nil _ hne, hc,
      Option.some_inj] at hlast
    rw [hlast, hdigit] at hb
    cases hb
  · have hbody : body = (seektoText ++ (x ++ ([44] ++ y))) ++ after := by
      have hdrop := congrArg List.dropLast htext
      rw [List.dropLast_concat] at hdrop
      rw [hdrop]
      simp only [← List.append_assoc, List.dropLast_concat]
    have hnul : ∀ c ∈ seektoText ++ (x ++ ([44] ++ y)), decide (c ≠ 0) = true := by
      intro c hc
      rw [decide_eq_true_eq]
      rcases List.mem_append.1 hc with hc | hc
      · revert hc
        rintro hc rfl
        revert hc
        decide
      rcases List.mem_append.1 hc with hc | hc
      · exact hx.ne_zero c hc
      rcases List.mem_append.1 hc with hc | hc
      · rw [List.mem_singleton.1 hc]; decide
      · exact hy.ne_zero c hc
    refine ⟨x, y, after.takeWhile (· ≠ 0), ?_, hx, hy, fun c hc ↦ ?_⟩
    · rw [hbody, List.takeWhile_append_of_pos hnul]
      simp only [List.append_assoc]
    · cases after with
      | nil => cases hc
      | cons d after =>
        rw [List.takeWhile_cons] at hc
        split at hc
        · exact hafter c hc
        · cases hc

/-- **Which packets are seek commands.**  A newline-terminated packet is taken for the seek command
with some values if and only if it begins with the text, a number of the first value, a comma and a
number of the second value, and no digit follows. -/
theorem seekCommand_iff {packet : List Byte} {seekto : AesdSeekto} (h : NewlineTerminated packet) :
    seekCommand packet = some seekto ↔ SeekText packet seekto := by
  obtain ⟨body, rfl⟩ : ∃ body, packet = body ++ [newline] :=
    ⟨packet.dropLast, (List.dropLast_append_getLast? _ h).symm⟩
  rw [seekCommand_eq_some, List.dropLast_concat]
  have hnewline : NoDigit [newline] := by
    intro c hc
    obtain rfl : newline = c := by simpa using hc
    decide
  exact ⟨fun h ↦ h.of_takeWhile hnewline, fun h ↦ h.takeWhile (by decide)⟩

example : seekCommand (seektoText ++ [48, 44, 50, 10]) = some ⟨0, 2⟩ := by decide

example : seekCommand [104, 105, 10] = none := by decide

/-- The text of a seek command and nothing else: the two values in decimal digits. -/
def ExactText (packet : List Byte) (seekto : AesdSeekto) : Prop :=
  ∃ x y, packet = seektoText ++ (x ++ ([44] ++ (y ++ [newline]))) ∧
    (x ≠ [] ∧ (∀ c ∈ x, isDigit c = true) ∧ decimal x = seekto.writeCmd.toNat) ∧
    y ≠ [] ∧ (∀ c ∈ y, isDigit c = true) ∧ decimal y = seekto.writeCmdOffset.toNat

theorem numeral_of_digits {x : List Byte} {value : UInt32}
    (h : x ≠ [] ∧ (∀ c ∈ x, isDigit c = true) ∧ decimal x = value.toNat) : Numeral x value := by
  obtain ⟨hne, hd, hvalue⟩ := h
  refine ⟨[], [], x, rfl, by simp, Or.inl rfl, hne, hd, ?_⟩
  rw [if_neg (by simp), hvalue, UInt32.ofNat_toNat]

/-- The exact text is a seek command. -/
theorem ExactText.seekText {packet : List Byte} {seekto : AesdSeekto}
    (h : ExactText packet seekto) : SeekText packet seekto := by
  obtain ⟨x, y, rfl, hx, hy⟩ := h
  refine ⟨x, y, [newline], rfl, numeral_of_digits hx, numeral_of_digits hy, fun c hc ↦ ?_⟩
  obtain rfl : newline = c := by simpa using hc
  decide

/-- It has a digit before its newline. -/
theorem ExactText.digit_last {body : List Byte} {seekto : AesdSeekto}
    (h : ExactText (body ++ [newline]) seekto) :
    ∃ c, body.getLast? = some c ∧ isDigit c = true := by
  obtain ⟨x, y, htext, -, hne, hd, -⟩ := h
  have hdrop := congrArg List.dropLast htext
  simp only [← List.append_assoc, List.dropLast_concat] at hdrop
  refine ⟨y.getLast hne, ?_, hd _ (List.getLast_mem hne)⟩
  rw [hdrop, List.getLast?_append_of_ne_nil _ hne, List.getLast?_eq_getLast_of_ne_nil hne]

/-! ## The message about a seek -/

/-- `%u` of `printf`. -/
def printUnsigned (n : ℕ) : List Byte :=
  if n = 0 then [48] else (Nat.digits 10 n).reverse.map fun d ↦ UInt8.ofNat (48 + d)

/-- What `write_new_packet` logs when it seeks, by the format `"AESDCHAR_IOCSEEKTO:%u,%u"`. -/
def seektoMessage (seekto : AesdSeekto) : List Byte :=
  seektoText ++ (printUnsigned seekto.writeCmd.toNat ++
    ([44] ++ printUnsigned seekto.writeCmdOffset.toNat))

theorem decimal_digits {digits : List ℕ} (h : ∀ d ∈ digits, d < 10) :
    decimal (digits.reverse.map fun d ↦ UInt8.ofNat (48 + d)) = Nat.ofDigits 10 digits := by
  induction digits with
  | nil => rfl
  | cons d digits ih =>
    have hd := h d (List.mem_cons_self ..)
    have hchar : (UInt8.ofNat (48 + d)).toNat - 48 = d := by
      rw [UInt8.toNat_ofNat']
      omega
    have ih := ih fun x hx ↦ h x (List.mem_cons_of_mem _ hx)
    rw [decimal] at ih
    rw [decimal, List.reverse_cons, List.map_append, List.foldl_append, ih, Nat.ofDigits_cons]
    simp only [List.map_cons, List.map_nil, List.foldl_cons, List.foldl_nil, hchar]
    exact Nat.add_comm _ _

theorem printUnsigned_spec (n : ℕ) : printUnsigned n ≠ [] ∧
    (∀ c ∈ printUnsigned n, isDigit c = true) ∧ decimal (printUnsigned n) = n := by
  rw [printUnsigned]
  split
  · rename_i h
    rw [h]
    exact ⟨List.cons_ne_nil _ _, fun c hc ↦ by rw [List.mem_singleton.1 hc]; rfl, rfl⟩
  · rename_i hn
    have hlt : ∀ d ∈ Nat.digits 10 n, d < 10 := fun d hd ↦ Nat.digits_lt_base (by decide) hd
    refine ⟨by simpa [Nat.digits_eq_nil_iff_eq_zero] using hn, fun c hc ↦ ?_, ?_⟩
    · obtain ⟨d, hd, rfl⟩ := List.mem_map.1 hc
      have := hlt d (List.mem_reverse.1 hd)
      rw [isDigit_iff, UInt8.toNat_ofNat']
      omega
    · rw [decimal_digits hlt, Nat.ofDigits_digits]

/-- **The message names the seek**: as a packet it is a seek command with the values it was made of,
and with no others. -/
theorem seekCommand_message_iff {seekto other : AesdSeekto} :
    seekCommand (seektoMessage seekto ++ [newline]) = some other ↔ other = seekto := by
  have hexact : ExactText (seektoMessage seekto ++ [newline]) seekto :=
    ⟨_, _, by simp only [seektoMessage, List.append_assoc], printUnsigned_spec _,
      printUnsigned_spec _⟩
  have hread := (seekCommand_iff (by simp [NewlineTerminated])).2 hexact.seekText
  rw [hread, Option.some_inj, eq_comm]

example : seektoMessage ⟨3, 120⟩ = seektoText ++ [51, 44, 49, 50, 48] := by decide

/-! ## What becomes of a packet -/

namespace System

section Branches

variable [Platform] {build : Build} {s t u : System} {i : ℕ} {l : Label}

/-- The log only grows. -/
theorem logged_isPrefix (hinv : s.Shared build) (hs : s.step l = some t) :
    s.logged <+: t.logged := by
  rcases step_cases hinv.clients hs with hq | ⟨i, e, c, event, s', u, rfl, hm⟩
  · rw [logged, logged, hq.log]
  obtain ⟨-, -, hlog, -⟩ := hm.shared
  rcases hm.effect.log with ⟨heq, -⟩ | ⟨heq, -⟩
  · rw [logged, logged, hlog, heq]
  · rw [logged, logged, hlog, heq, List.map_append]
    exact List.prefix_append _ _

/-- **The two branches of `write_new_packet`.**  A newline-terminated packet is taken for the seek
command if and only if it begins like one.  When a thread gets the lock for its packet, it goes on
to the `ioctl` with the command's values, and the packet is not stored; or the whole packet is going
to be written, and is logged behind all those before it.  In a run in which no `write` call fails,
whenever nobody holds the lock for writing afterwards, the store has the logged packets in order:
the file has all of them, the device the last ten. -/
theorem seek_recognised (h : Machine.Reachable step Machine.Always (init build) s)
    (hs : s.step (.thread i .wrlock) = some t) :
    (∀ packet seekto, NewlineTerminated packet →
      (seekCommand packet = some seekto ↔ SeekText packet seekto)) ∧
    ∃ packet, (s.session i).packet = some packet ∧ Segments.IsSegment (· = newline) packet ∧
      ((∃ seekto, SeekText packet seekto ∧ (t.session i).pc = .ioctl ∧
          (t.session i).seekto = some seekto ∧ t.logged = s.logged) ∨
        (∀ seekto, ¬ SeekText packet seekto) ∧ (t.session i).pc = .fwrite ∧
          (t.session i).rest = packet ∧ t.logged = s.logged ++ [packet]) ∧
      (Machine.Reachable step WritesOk (init build) s → ∀ ms u, Machine.Run step WritesOk t ms u →
        u.lock.writer = none → t.logged <+: u.logged ∧ u.store.Holds u.logged []) := by
  refine ⟨fun packet seekto hterm ↦ seekCommand_iff hterm, ?_⟩
  have hinv := shared_reachable h
  have hstore : Machine.Reachable step WritesOk (init build) s → ∀ ms u,
      Machine.Run step WritesOk t ms u → u.lock.writer = none →
      t.logged <+: u.logged ∧ u.store.Holds u.logged [] := by
    intro hok ms u hrun hfree
    have hok' : Machine.Reachable step WritesOk (init build) t :=
      hok.trans ⟨_, .single (by rfl) hs⟩
    obtain ⟨hinv', hstored⟩ := stored_reachable (hok'.trans ⟨ms, hrun⟩)
    refine ⟨?_, hstored.holds hinv' hfree⟩
    have hgrow := hrun.invariant (P := fun u ↦ u.Shared build ∧ t.logged <+: u.logged)
      (fun _ _ _ hu _ hstep ↦ ⟨hu.1.step hstep, hu.2.trans (logged_isPrefix hu.1 hstep)⟩)
      ⟨hinv.step hs, List.prefix_rfl⟩
    exact hgrow.2
  obtain ⟨c, event, s', v, hm⟩ := hinv.thread_moves hs
  have hevent : event = .wrlock := by
    have hout := hm.outside
    rw [outside] at hout
    obtain ⟨lock, -, hout⟩ := Option.map_eq_some_iff.1 hout
    cases hout
    rfl
  subst hevent
  obtain ⟨lock, -, rfl⟩ := effect_wrlock hm.effect
  obtain ⟨-, -, hlog, -⟩ := hm.shared
  have hlogged : t.logged = s.logged ++ (toStore i c.session).map Prod.snd := by
    rw [logged, hlog, List.map_append, logged]
  have hflat := hinv.flat i
  rw [session_eq hm.get] at hflat ⊢
  have hpc := hm.pc_eq.1
  rw [Session.FlatInv, hpc] at hflat
  obtain ⟨packet, -, ⟨hpacket, -⟩, hseg, hseek⟩ := hflat
  have hterm := terminated_of_isSegment hseg
  refine ⟨packet, hpacket, hseg, ?_, hstore⟩
  rw [hm.session_self, hlogged, toStore, hpacket]
  cases hinv.turn hm with
  | idle he => cases he
  | append packet' _ flat seekto =>
    obtain ⟨-, ⟨hpacket', -⟩, -⟩ := flat
    obtain rfl : packet' = packet := by rw [hpacket', Option.some_inj] at hpacket; exact hpacket
    refine Or.inr ⟨fun seekto' htext ↦ ?_, rfl, rfl, by rw [seekto]; rfl⟩
    rw [← seekCommand_iff hterm, ← hseek, seekto] at htext
    cases htext
  | seek _ seekto =>
    obtain ⟨seekto', hsome⟩ := Option.ne_none_iff_exists'.1 seekto
    refine Or.inl ⟨seekto', ?_, rfl, hsome, by rw [hsome]; simp⟩
    rw [← seekCommand_iff hterm, ← hseek, hsome]

end Branches

/-- A client's packet, which its thread is to take the lock for. -/
def complete (packet : List Byte) : List Label :=
  Label.connect 0 ++ Label.steps 0 [.start true, .recv (.data packet), .scan true]

attribute [local instance] linux64 in
theorem seek_recognised_data : ∃ t,
    (after .device (complete [104, 105, 10])).step (.thread 0 .wrlock) = some t ∧
    ((t.session 0).rest = [104, 105, 10] ∨ (t.session 0).pc = .ioctl) := by
  have hrun : Machine.Reachable step Machine.Always (init .device)
      (after .device (complete [104, 105, 10])) := ⟨_, run_after (by decide +kernel)⟩
  have hpacket : ((after .device (complete [104, 105, 10])).session 0).packet
      = some [104, 105, 10] := by decide +kernel
  have hsome : ((after .device (complete [104, 105, 10])).step (.thread 0 .wrlock)).isSome := by
    decide +kernel
  obtain ⟨t, hstep⟩ := Option.isSome_iff_exists.1 hsome
  refine ⟨t, hstep, ?_⟩
  obtain ⟨-, packet, heq, -, hcases, -⟩ := seek_recognised hrun hstep
  obtain rfl : [104, 105, 10] = packet := by rwa [hpacket, Option.some_inj] at heq
  rcases hcases with ⟨-, -, hpc, -⟩ | ⟨-, -, hrest, -⟩
  · exact Or.inr hpc
  · exact Or.inl hrest

attribute [local instance] linux64 in
/-- A packet with more text after the numbers is taken for a seek command and lost; the numbers may
be too large, or have blanks and a sign; and a packet for which there is no memory is lost too. -/
theorem seek_command_with_more :
    (∀ seekto, ¬ ExactText (seektoText ++ [49, 44, 50, 120, newline]) seekto) ∧
    seekCommand (seektoText ++ [52, 50, 57, 52, 57, 54, 55, 50, 57, 55, 44, 48, newline])
      = some ⟨1, 0⟩ ∧
    seekCommand (seektoText ++ [32, 45, 49, 44, 43, 50, newline]) = some ⟨4294967295, 2⟩ ∧
    (∃ s, Machine.Reachable step WritesOk (init .device) s ∧
      (s.session 0).packets = [seektoText ++ [49, 44, 50, 120, newline]] ∧
      (s.session 0).seekto = some ⟨1, 2⟩ ∧ (s.session 0).pc = .wrunlock ∧ s.store.content = []) ∧
    ∃ s, Machine.Reachable step WritesOk (init .device) s ∧
      (s.session 0).stream = [104, 105, newline] ∧ (s.session 0).pc = .recv ∧
      s.store.content = [] := by
  refine ⟨fun seekto h ↦ ?_, by decide +kernel, by decide +kernel, ?_, ?_⟩
  · have h : ExactText ((seektoText ++ [49, 44, 50, 120]) ++ [newline]) seekto := h
    obtain ⟨c, hc, hd⟩ := h.digit_last
    rw [List.getLast?_append_of_ne_nil _ (by simp)] at hc
    obtain rfl : 120 = c := by simpa using hc
    exact absurd hd (by decide)
  · exact ⟨after .device (complete (seektoText ++ [49, 44, 50, 120, newline]) ++
      Label.steps 0 [.wrlock, .ioctl]), ⟨_, run_after (by decide +kernel)⟩, by decide +kernel⟩
  · exact ⟨after .device (Label.connect 0 ++ Label.steps 0 [.start true,
      .recv (.data [104, 105, newline]), .scan false, .rdlock, .read 10, .rdunlock, .next,
      .scan true]), ⟨_, run_after (by decide +kernel)⟩, by decide +kernel⟩

end System

end Aesd
