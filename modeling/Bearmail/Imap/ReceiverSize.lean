import Bearmail.Imap.Receiver
import Bearmail.Lib.Runs

/-!
# The size of a request under construction

What `push_argument`, `push_token` and the header of a literal charge to
`current_request_size`, against what the receiver holds: an argument counts its
bytes, any other token one.
-/

namespace Bearmail.Imap

open List

def Token.size : Token → Nat
  | .argument value => value.length
  | _ => 1

def Request.size {T : Type} (request : Request T) : Nat := (request.tokens.map Token.size).sum

namespace Receiver

section

variable {T : Type}

/-- The request is within the maximum, and with the argument that is being read at most
the length of its buffer above. -/
structure Held (r : Receiver T) : Prop where
  tokens : r.request.tokens.length ≤ r.maxRequestSize
  size : r.request.size ≤ r.maxRequestSize
  buffer : r.request.size + r.buf.length ≤ r.maxRequestSize + argMaxLen

/-- The byte ends a quoted string without content. -/
def EndsEmptyQuoted (r : Receiver T) (ch : UInt8) : Prop :=
  r.state = .argumentQuoted false ∧ r.buf = [] ∧ ch = 34

instance (r : Receiver T) (ch : UInt8) : Decidable (r.EndsEmptyQuoted ch) :=
  inferInstanceAs (Decidable (_ ∧ _ ∧ _))

/-! ## What is charged -/

def Room (r : Receiver T) : Prop :=
  match r.state with
  | .start => r.buf = []
  | .tag => r.buf.length ≤ 128
  | .command _ => r.buf.length ≤ 15
  | .argument _ => r.buf.length ≤ argMaxLen
  | .argumentQuoted _ => r.buf.length ≤ argMaxLen
  | .literal _ => r.buf.length ≤ 15
  | .literalSeek size nonSync =>
    r.buf = [] ∧ (nonSync = false → r.currentRequestSize + size ≤ r.maxRequestSize)
  | .literalData remaining =>
    r.currentRequestSize + r.buf.length + remaining ≤ r.maxRequestSize ∧ 0 < remaining
  | .literalDiscard _ => r.buf = []

def StartsAnew (state : ReceiverState) : Prop := state = .start ∨ ∃ isUid, state = .command isUid

structure Charged (r : Receiver T) : Prop where
  start : StartsAnew r.startState
  arguments : ∀ value, .argument value ∈ r.request.tokens → value ≠ []
  charged : r.request.size ≤ r.currentRequestSize
  within : r.currentRequestSize ≤ r.maxRequestSize

def Accounted (r : Receiver T) : Prop := r.Charged ∧ r.Room

theorem size_addToken (r : Receiver T) (token : Token) :
    (r.addToken token).request.size = r.request.size + token.size := by
  simp [addToken, Request.size]

variable {r : Receiver T}

theorem accounted_empty (h : StartsAnew r.startState)
    (htokens : r.request.tokens = []) (hbuf : r.buf = []) (hstate : r.state = r.startState) :
    r.currentRequestSize ≤ r.maxRequestSize → r.Accounted := by
  intro hwithin
  refine ⟨⟨h, ?_, ?_, hwithin⟩, ?_⟩
  · intro value hmem
    rw [htokens] at hmem
    cases hmem
  · simp [Request.size, htokens]
  · rcases h with hs | ⟨isUid, hs⟩
    all_goals simp [Room, hstate, hs, hbuf]

theorem Charged.with (h : r.Charged) (buf : Bytes) (state : ReceiverState) :
    Charged { r with buf, state } := ⟨h.start, h.arguments, h.charged, h.within⟩

theorem Accounted.goto (h : r.Charged) {state : ReceiverState}
    (hroom : Room { r with state }) : (r.goto state).1.Accounted :=
  ⟨h.with r.buf state, hroom⟩

theorem length_le_size {tokens : List Token} (h : ∀ value, .argument value ∈ tokens → value ≠ []) :
    tokens.length ≤ (tokens.map Token.size).sum := by
  induction tokens with
  | nil => exact Nat.le_refl 0
  | cons token tokens ih =>
    have hrest := ih fun value hmem => h value (mem_cons_of_mem _ hmem)
    have hone : 1 ≤ token.size := by
      cases token with
      | argument value => exact length_pos_iff.mpr (h value mem_cons_self)
      | _ => exact Nat.le_refl 1
    rw [length_cons, map_cons, sum_cons]
    omega

theorem Accounted.held (h : r.Accounted) : r.Held := by
  obtain ⟨hc, hroom⟩ := h
  have hcharged := hc.charged
  have hwithin := hc.within
  have htokens := length_le_size hc.arguments
  have hlimit : argMaxLen = 8000 := rfl
  refine ⟨Nat.le_trans htokens (Nat.le_trans hcharged hwithin), Nat.le_trans hcharged hwithin, ?_⟩
  unfold Room at hroom
  cases hstate : r.state with
  | start | literalDiscard remaining =>
    rw [hstate] at hroom
    rw [show r.buf = [] from hroom, length_nil]
    omega
  | literalSeek size nonSync =>
    rw [hstate] at hroom
    rw [hroom.1, length_nil]
    omega
  | _ =>
    rw [hstate] at hroom
    omega

end

variable {T : Type} [CommandParser T]

/-- The receiver after a byte, whatever it reports. -/
def next (r : Receiver T) (ch : UInt8) : Option (Receiver T) := some (r.step ch).1

variable {r : Receiver T}

theorem accounted_errorReset (h : StartsAnew r.startState) (message : Message) :
    (r.errorReset message).1.Accounted :=
  accounted_empty h rfl rfl rfl (Nat.zero_le _)

theorem Charged.errorReset (h : r.Charged) (message : Message) :
    (r.errorReset message).1.Accounted := accounted_errorReset h.start message

theorem Charged.finish (h : r.Charged) (hbuf : r.buf = []) :
    r.finish.1.Accounted :=
  accounted_empty h.start rfl hbuf rfl (Nat.zero_le _)

theorem Charged.pushArgument (h : r.Charged) (inQuote : Bool)
    (hquote : inQuote = true → r.buf ≠ []) (next : Receiver T → Step T)
    (hnext : ∀ r' : Receiver T, r'.Charged → r'.buf = [] → r'.state = r.state → (next r').1.Accounted) :
    (r.pushArgument inQuote next).1.Accounted := by
  unfold Receiver.pushArgument
  split
  · rename_i hne
    dsimp only
    split
    · exact accounted_errorReset h.start _
    · rename_i hle
      refine hnext _ ⟨h.start, ?_, ?_, Nat.le_of_not_lt hle⟩ rfl rfl
      · intro value hmem
        rcases mem_append.mp hmem with hold | hlast
        · exact h.arguments value hold
        · cases mem_singleton.mp hlast
          exact hne
      · rw [size_addToken]
        exact Nat.add_le_add_right h.charged _
  · rename_i hnil
    have hbuf : r.buf = [] := by
      by_contra hne
      exact hnil hne
    split
    · rename_i hq
      exact absurd hbuf (hquote hq)
    · exact hnext r h hbuf rfl

theorem Charged.pushToken (h : r.Charged) {token : Token} (htoken : token.size = 1)
    (harg : ∀ value, token ≠ .argument value) (next : Receiver T → Step T)
    (hnext : ∀ r' : Receiver T, r'.Charged → r'.buf = r.buf → r'.state = r.state →
      r'.maxRequestSize = r.maxRequestSize → (next r').1.Accounted) :
    (r.pushToken token next).1.Accounted := by
  unfold Receiver.pushToken
  dsimp only
  split
  · exact accounted_errorReset h.start _
  · rename_i hle
    refine hnext _ ⟨h.start, ?_, ?_, Nat.le_of_not_lt hle⟩ rfl rfl rfl
    · intro value hmem
      rcases mem_append.mp hmem with hold | hlast
      · exact h.arguments value hold
      · exact absurd (mem_singleton.mp hlast).symm (harg value)
    · rw [size_addToken, htoken]
      exact Nat.add_le_add_right h.charged 1

theorem Charged.pushChecked (h : r.Charged) (ch : UInt8) (limit : Nat)
    (message : String) (next : Receiver T → Step T)
    (hnext : (r.buf ++ [ch]).length ≤ limit → (next { r with buf := r.buf ++ [ch] }).1.Accounted) :
    (r.pushChecked ch limit message next).1.Accounted := by
  unfold Receiver.pushChecked
  split
  · rename_i hlt
    exact hnext (by rw [length_append, length_singleton]; omega)
  · exact h.errorReset _

/-! ## One byte -/

theorem Charged.stepTag (h : r.Charged) (hstate : r.state = .tag)
    (hbuf : r.buf.length ≤ 128) (ch : UInt8) : (r.stepTag ch).1.Accounted := by
  have hsame : r.Accounted := ⟨h, by rw [Room, hstate]; exact hbuf⟩
  unfold Receiver.stepTag
  split
  · split
    · split
      · exact ⟨⟨h.start, h.arguments, h.charged, h.within⟩, Nat.zero_le _⟩
      · exact accounted_errorReset h.start _
    · exact hsame
  · split
    · exact hsame
    · split
      · exact h.errorReset _
      · refine h.pushChecked ch 128 _ _ fun hlen => ⟨h.with _ r.state, ?_⟩
        rw [hstate]
        exact hlen

theorem Charged.stepCommand (h : r.Charged) {isUid : Bool}
    (hstate : r.state = .command isUid) (hbuf : r.buf.length ≤ 15) (ch : UInt8) :
    (r.stepCommand isUid ch).1.Accounted := by
  have hsame : r.Accounted := ⟨h, by rw [Room, hstate]; exact hbuf⟩
  unfold Receiver.stepCommand
  split
  · refine h.pushChecked _ 15 _ _ fun hlen => ⟨h.with _ r.state, ?_⟩
    rw [hstate]
    exact hlen
  · split
    · split
      · split
        · split
          · exact h.errorReset _
          · dsimp only
            split
            · exact ⟨⟨h.start, h.arguments, h.charged, h.within⟩, Nat.zero_le _⟩
            · exact Charged.finish ⟨h.start, h.arguments, h.charged, h.within⟩ rfl
        · exact Accounted.goto (h.with [] r.state) (Nat.zero_le _)
      · exact hsame
    · exact h.errorReset _

theorem singleToken_size {ch : UInt8} {token : Token} (h : r.singleToken ch = some token) :
    token.size = 1 ∧ ∀ value, token ≠ .argument value := by
  simp only [singleToken, ite_eq_iff, Option.some.injEq, reduceCtorEq, and_false, or_false] at h
  obtain ⟨-, rfl⟩ | ⟨-, ⟨-, rfl⟩ | ⟨-, -, ⟨-, rfl⟩ | ⟨-, ⟨-, rfl⟩ | ⟨-, ⟨-, rfl⟩ | ⟨-, ⟨-, rfl⟩ |
    ⟨-, -, rfl⟩⟩⟩⟩⟩⟩ := h
  all_goals exact ⟨rfl, nofun⟩

theorem Charged.stepArgument (h : r.Charged) {lastCh : UInt8}
    (hstate : r.state = .argument lastCh) (ch : UInt8) : (r.stepArgument lastCh ch).1.Accounted := by
  have hno : false = true → r.buf ≠ [] := fun hf => by cases hf
  -- With the argument pushed, every state has room.
  have hgoto : ∀ {r' : Receiver T} {state : ReceiverState}, r'.Charged → r'.buf = [] →
      (∀ size nonSync, state ≠ .literalSeek size nonSync) → (∀ remaining, state ≠ .literalData remaining) →
      (r'.goto state).1.Accounted := by
    intro r' state hr' hbuf hseek hdata
    refine Accounted.goto hr' ?_
    cases state with
    | literalSeek size nonSync => exact absurd rfl (hseek size nonSync)
    | literalData remaining => exact absurd rfl (hdata remaining)
    | _ => simp [Room, hbuf]
  unfold Receiver.stepArgument
  split
  · exact h.pushArgument false hno _ fun r' hr' hbuf _ => hgoto hr' hbuf (by simp) (by simp)
  · split
    · split
      · exact h.pushArgument false hno _ fun r' hr' hbuf _ => hgoto hr' hbuf (by simp) (by simp)
      · exact hgoto (h.with [] r.state) rfl (by simp) (by simp)
    · split
      · rename_i token htoken
        obtain ⟨hsize, harg⟩ := singleToken_size htoken
        refine h.pushArgument false hno _ fun r' hr' hbuf hs' => ?_
        refine hr'.pushToken hsize harg _ fun r'' hr'' hbuf' hs'' _ => ⟨hr'', ?_⟩
        rw [Room, hs'', hs', hstate]
        simp [hbuf', hbuf]
      · split
        · exact h.pushArgument false hno _ fun r' hr' hbuf _ => hr'.finish hbuf
        · split
          · exact h.pushArgument false hno _ fun r' hr' hbuf _ => hgoto hr' hbuf (by simp) (by simp)
          · exact h.pushChecked ch argMaxLen _ _ fun hlen => Accounted.goto (h.with _ r.state) hlen

theorem Charged.stepQuoted (h : r.Charged) {escaped : Bool} {ch : UInt8}
    (hquoted : ¬ (escaped = false ∧ r.buf = [] ∧ ch = 34)) (hbuf : r.buf.length ≤ argMaxLen) :
    (r.stepQuoted escaped ch).1.Accounted := by
  unfold Receiver.stepQuoted
  split
  · rename_i hch
    split
    · rename_i hesc
      have hne : true = true → r.buf ≠ [] := fun _ hnil => hquoted ⟨hesc, hnil, hch⟩
      refine h.pushArgument true hne _ fun r' hr' hb _ => Accounted.goto hr' ?_
      simp [Room, hb]
    · exact h.pushChecked ch argMaxLen _ _ fun hlen => Accounted.goto (h.with _ r.state) hlen
  · split
    · split
      · exact h.pushChecked ch argMaxLen _ _ fun hlen => Accounted.goto (h.with _ r.state) hlen
      · exact Accounted.goto h hbuf
    · split
      · exact h.errorReset _
      · split
        · exact (h.with (r.buf ++ [92]) r.state).pushChecked ch argMaxLen _ _ fun hlen =>
            Accounted.goto (h.with _ r.state) hlen
        · exact h.pushChecked ch argMaxLen _ _ fun hlen => Accounted.goto (h.with _ r.state) hlen

theorem Charged.stepLiteral (h : r.Charged) {nonSync : Bool}
    (hstate : r.state = .literal nonSync) (hbuf : r.buf.length ≤ 15) (ch : UInt8) :
    (r.stepLiteral nonSync ch).1.Accounted := by
  unfold Receiver.stepLiteral
  split
  · split
    · split
      · exact h.errorReset _
      · rename_i size _
        split
        · exact h.errorReset _
        · rename_i hfits
          refine Accounted.goto (h.with [] r.state) ⟨rfl, fun hsync => ?_⟩
          by_contra hover
          exact hfits ⟨Nat.lt_of_not_le hover, hsync⟩
    · exact h.errorReset _
  · split
    · split
      · exact Accounted.goto h hbuf
      · exact h.errorReset _
    · split
      · split
        · refine h.pushChecked ch 15 _ _ fun hlen => ⟨h.with _ r.state, ?_⟩
          rw [hstate]
          exact hlen
        · exact h.errorReset _
      · exact h.errorReset _

theorem Charged.stepLiteralSeek (h : r.Charged) {size : Nat} {nonSync : Bool}
    (hstate : r.state = .literalSeek size nonSync) (hbuf : r.buf = [])
    (hsync : nonSync = false → r.currentRequestSize + size ≤ r.maxRequestSize) (ch : UInt8) :
    (r.stepLiteralSeek size nonSync ch).1.Accounted := by
  unfold Receiver.stepLiteralSeek
  split
  · split
    · exact Accounted.goto h hbuf
    · rename_i hfits
      split
      · rename_i hpos
        refine ⟨h.with r.buf (.literalData size), ?_, hpos⟩
        show r.currentRequestSize + r.buf.length + size ≤ r.maxRequestSize
        rw [hbuf]
        cases nonSync with
        | false => exact hsync rfl
        | true =>
          by_contra hover
          exact hfits ⟨rfl, Nat.lt_of_not_le hover⟩
      · refine (h.with r.buf (.argument 32)).pushToken rfl (by simp) _ fun r' hr' hb hs _ => ⟨hr', ?_⟩
        show Room r'
        rw [Room, hs]
        simp [hb, hbuf]
  · split
    · exact h.errorReset _
    · refine ⟨h, ?_⟩
      rw [Room, hstate]
      exact ⟨hbuf, hsync⟩

theorem Accounted.step (h : r.Accounted) {ch : UInt8}
    (hquoted : ¬ r.EndsEmptyQuoted ch) : (r.step ch).1.Accounted := by
  obtain ⟨hc, hroom⟩ := h
  unfold Receiver.step
  unfold Room at hroom
  cases hstate : r.state with
  | start =>
    rw [hstate] at hroom
    dsimp only
    split
    · refine ⟨hc.with _ .tag, ?_⟩
      show (r.buf ++ [ch]).length ≤ 128
      rw [show r.buf = [] from hroom]
      simp
    · exact ⟨hc, by rw [Room, hstate]; exact hroom⟩
  | tag =>
    rw [hstate] at hroom
    exact hc.stepTag hstate hroom ch
  | command isUid =>
    rw [hstate] at hroom
    exact hc.stepCommand hstate hroom ch
  | argument lastCh => exact hc.stepArgument hstate ch
  | argumentQuoted escaped =>
    rw [hstate] at hroom
    exact hc.stepQuoted (fun hends => hquoted ⟨hends.1 ▸ hstate, hends.2.1, hends.2.2⟩) hroom
  | literal nonSync =>
    rw [hstate] at hroom
    exact hc.stepLiteral hstate hroom ch
  | literalSeek size nonSync =>
    rw [hstate] at hroom
    exact hc.stepLiteralSeek hstate hroom.1 hroom.2 ch
  | literalDiscard remaining =>
    rw [hstate] at hroom
    dsimp only
    split
    · exact Accounted.goto hc hroom
    · exact hc.errorReset _
  | literalData remaining =>
    rw [hstate] at hroom
    dsimp only
    split
    · rename_i hmore
      refine Accounted.goto (hc.with (r.buf ++ [ch]) r.state) ⟨?_, by omega⟩
      show r.currentRequestSize + (r.buf ++ [ch]).length + (remaining - 1) ≤ r.maxRequestSize
      rw [length_append, length_singleton]
      omega
    · refine (hc.with (r.buf ++ [ch]) r.state).pushArgument false (fun hf => by cases hf) _
        fun r' hr' hb _ => Accounted.goto hr' ?_
      simp [Room, hb]

/-! ## Every run -/

def withStartState (r : Receiver T) (state : ReceiverState) : Receiver T :=
  { r with state, startState := state }

end Receiver

end Bearmail.Imap
