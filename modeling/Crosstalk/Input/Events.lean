import Crosstalk.Interpreter.Semaphores

/-!
# The words of the input queue

Each word has a type of 4 bits and a parameter of 12. A word of type 5 announces
two words of time that have no type. What `process_events` queues is read back
with the type and the parameter of each word.
-/

namespace Crosstalk

namespace Events

/-! ## Reading the words -/

/-- The types and parameters of words, after `skip` words of time. -/
def decode : Nat → List Nat → List (Nat × Nat)
  | _, [] => []
  | skip + 1, _ :: words => decode skip words
  | 0, word :: words =>
      if word >>> 12 = 5 then decode 2 words
      else (word >>> 12, word &&& 0xfff) :: decode 0 words

/-- What is no time. -/
def events (words : List Nat) : List (Nat × Nat) := (decode 0 words).filter fun e => e.1 ≠ 0

/-- Whole messages, with the events `es`. -/
def Carries (es : List (Nat × Nat)) (words : List Nat) : Prop :=
  ∃ all, (∀ rest, decode 0 (words ++ rest) = all ++ decode 0 rest) ∧
    all.filter (fun e => e.1 ≠ 0) = es

theorem Carries.events_eq {es : List (Nat × Nat)} {words : List Nat} (h : Carries es words) :
    events words = es := by
  obtain ⟨all, hall, hes⟩ := h
  have hwords := hall []
  rw [List.append_nil, decode, List.append_nil] at hwords
  rw [events, hwords, hes]

theorem carries_nil : Carries [] [] := ⟨[], fun _ => rfl, rfl⟩

theorem Carries.append {es es' : List (Nat × Nat)} {words words' : List Nat}
    (h : Carries es words) (h' : Carries es' words') : Carries (es ++ es') (words ++ words') := by
  obtain ⟨all, hall, hes⟩ := h
  obtain ⟨all', hall', hes'⟩ := h'
  refine ⟨all ++ all', fun rest => ?_, ?_⟩
  · rw [List.append_assoc, hall, hall', List.append_assoc]
  · rw [List.filter_append, hes, hes']

/-- The word of a type and a parameter. -/
def inputWord (type parameter : Nat) : Nat := ((type &&& 0xf) <<< 12) ||| (parameter &&& 0xfff)

theorem inputWord_eq {type : Nat} (h : type < 16) (parameter : Nat) :
    inputWord type parameter = 4096 * type + parameter % 4096 := by
  have htype : type &&& 0xf = type := by
    rw [show (0xf : Nat) = 2 ^ 4 - 1 from rfl, Nat.and_two_pow_sub_one_eq_mod]
    omega
  have hparameter : parameter &&& 0xfff = parameter % 4096 :=
    Nat.and_two_pow_sub_one_eq_mod parameter 12
  have hlt : parameter % 4096 < 2 ^ 12 := Nat.mod_lt _ (by decide)
  rw [inputWord, htype, hparameter, ← Nat.shiftLeft_add_eq_or_of_lt hlt, Nat.shiftLeft_eq]
  omega

/-- A word comes back with its type and its parameter. -/
theorem decode_inputWord {type parameter : Nat} (h : type < 16) (h5 : type ≠ 5)
    (words : List Nat) : decode 0 (inputWord type parameter :: words) =
      (type, parameter % 4096) :: decode 0 words := by
  have htype : inputWord type parameter >>> 12 = type := by
    rw [inputWord_eq h, Nat.shiftRight_eq_div_pow]
    omega
  have hparameter : inputWord type parameter &&& 0xfff = parameter % 4096 := by
    rw [show (0xfff : Nat) = 2 ^ 12 - 1 from rfl, Nat.and_two_pow_sub_one_eq_mod, inputWord_eq h]
    omega
  rw [decode, htype, if_neg h5, hparameter]

theorem carries_inputWord {type parameter : Nat} (h : type < 16) (h0 : type ≠ 0) (h5 : type ≠ 5) :
    Carries [(type, parameter % 4096)] [inputWord type parameter] := by
  refine ⟨[(type, parameter % 4096)], fun rest => decode_inputWord h h5 rest, ?_⟩
  rw [List.filter_cons_of_pos (by simpa using h0), List.filter_nil]

theorem carries_deltaTime (deltaTime : Nat) : Carries [] [inputWord 0 deltaTime] :=
  ⟨[(0, deltaTime % 4096)], fun rest => decode_inputWord (by decide) (by decide) rest, rfl⟩

theorem carries_absTime (high low : Nat) : Carries [] [inputWord 5 0, high, low] := by
  refine ⟨[], fun rest => ?_, rfl⟩
  have h5 : inputWord 5 0 >>> 12 = 5 := by decide
  rw [List.cons_append, decode, if_pos h5]
  rfl

/-! ## Programs that queue words -/

/-- At most `n` words with `P` have been queued, each with a signal of the input
semaphore. -/
structure Queued (n : Nat) (P : List Nat → Prop) (s t : VirtualMachine) : Prop where
  words : ∃ words, t.inputQueue = s.inputQueue ++ words ∧ P words ∧ words.length ≤ n ∧
    t.semaphoreIndex = s.semaphoreIndex + words.length
  inputSemaphore : t.inputSemaphore = s.inputSemaphore
  mouseOldmb : t.mouseOldmb = s.mouseOldmb

theorem Queued.mono {n k : Nat} {P Q : List Nat → Prop} {s t : VirtualMachine}
    (h : Queued n P s t) (hPQ : ∀ words, P words → Q words) (hn : n ≤ k) : Queued k Q s t := by
  obtain ⟨words, hqueue, hP, hlength, hindex⟩ := h.words
  exact ⟨⟨words, hqueue, hPQ _ hP, hlength.trans hn, hindex⟩, h.inputSemaphore, h.mouseOldmb⟩

theorem Queued.trans {n k : Nat} {P Q : List Nat → Prop} {s t u : VirtualMachine}
    (h : Queued n P s t) (h' : Queued k Q t u) :
    Queued (n + k) (fun words => ∃ w w', words = w ++ w' ∧ P w ∧ Q w') s u := by
  obtain ⟨w, hqueue, hP, hlength, hindex⟩ := h.words
  obtain ⟨w', hqueue', hQ, hlength', hindex'⟩ := h'.words
  refine ⟨⟨w ++ w', ?_, ⟨w, w', rfl, hP, hQ⟩, ?_, ?_⟩, h'.inputSemaphore.trans h.inputSemaphore,
    h'.mouseOldmb.trans h.mouseOldmb⟩
  · rw [hqueue', hqueue, List.append_assoc]
  · rw [List.length_append]
    omega
  · rw [List.length_append, hindex', hindex]
    push_cast
    omega

theorem Queued.append {n k : Nat} {es es' : List (Nat × Nat)} {s t u : VirtualMachine}
    (h : Queued n (Carries es) s t) (h' : Queued k (Carries es') t u) :
    Queued (n + k) (Carries (es ++ es')) s u :=
  (h.trans h').mono (fun _ ⟨_, _, hwords, hw, hw'⟩ => hwords ▸ hw.append hw') le_rfl

/-- The mask of the buttons is not part of the queue. -/
theorem Queued.withMouse {n : Nat} {P : List Nat → Prop} {s t : VirtualMachine}
    (h : Queued n P s t) (mouseMb : Nat) :
    Queued n P { s with mouseOldmb := mouseMb } { t with mouseOldmb := mouseMb } :=
  ⟨h.words, h.inputSemaphore, rfl⟩

/-- There is an input semaphore, and room for `n` signals of it. -/
def HasRoom (n : Nat) (s : VirtualMachine) : Prop :=
  s.inputSemaphore ≠ 0 ∧ s.semaphoreIndex + n < semaphoreListSize

theorem HasRoom.mono {n k : Nat} {s : VirtualMachine} (h : HasRoom n s) (hk : k ≤ n) :
    HasRoom k s := by
  refine ⟨h.1, ?_⟩
  have := h.2
  omega

theorem Queued.hasRoom {n k : Nat} {P : List Nat → Prop} {s t : VirtualMachine}
    (h : Queued n P s t) (hs : HasRoom (n + k) s) : HasRoom k t := by
  obtain ⟨w, -, -, hlength, hindex⟩ := h.words
  refine ⟨h.inputSemaphore ▸ hs.1, ?_⟩
  have := hs.2
  omega

/-- The program queues at most `n` words with `P`, and ends where there is room. -/
structure Queues {α : Type} (n : Nat) (x : VM α) (P : List Nat → Prop) : Prop where
  queued : ∀ s, Wlp x (fun _ t => Queued n P s t) s
  ends : ∀ s, HasRoom n s → Wp x (fun _ _ => True) s

namespace Queues

variable {α β : Type} {n k : Nat} {x : VM α} {P Q : List Nat → Prop}

theorem of_run {f : VirtualMachine → VirtualMachine} {a : VirtualMachine → α}
    (hrun : ∀ s, x s = some (a s, f s)) (hqueue : ∀ s, (f s).inputQueue = s.inputQueue)
    (hindex : ∀ s, (f s).semaphoreIndex = s.semaphoreIndex)
    (hinput : ∀ s, (f s).inputSemaphore = s.inputSemaphore)
    (hmouse : ∀ s, (f s).mouseOldmb = s.mouseOldmb) : Queues 0 x (· = []) where
  queued s := by
    intro b t ht
    rw [hrun] at ht
    cases ht
    exact ⟨⟨[], by rw [hqueue, List.append_nil], rfl, le_rfl, by simp [hindex]⟩, hinput s, hmouse s⟩
  ends s _ := ⟨a s, f s, hrun s, trivial⟩

theorem mono (h : Queues n x P) (hPQ : ∀ words, P words → Q words) (hn : n ≤ k) :
    Queues k x Q where
  queued s := (h.queued s).mono fun _ t ht => ht.mono hPQ hn
  ends s hs := h.ends s ⟨hs.1, by have := hs.2; omega⟩

theorem bind {f : α → VM β} (hx : Queues n x P) (hf : ∀ a, Queues k (f a) Q) :
    Queues (n + k) (x >>= f) fun words => ∃ w w', words = w ++ w' ∧ P w ∧ Q w' where
  queued s := by
    rw [wlp_bind]
    exact (hx.queued s).mono fun a t ht => ((hf a).queued t).mono fun b u hu => ht.trans hu
  ends s hs := by
    rw [wp_bind]
    refine ((hx.ends s ⟨hs.1, ?_⟩).and_wlp (hx.queued s)).mono fun a t ⟨_, ht⟩ => ?_
    · have := hs.2
      omega
    · exact (hf a).ends t (ht.hasRoom hs)

/-- An assignment to other registers. -/
theorem update {f : VirtualMachine → VirtualMachine}
    (hqueue : ∀ s, (f s).inputQueue = s.inputQueue)
    (hindex : ∀ s, (f s).semaphoreIndex = s.semaphoreIndex)
    (hinput : ∀ s, (f s).inputSemaphore = s.inputSemaphore)
    (hmouse : ∀ s, (f s).mouseOldmb = s.mouseOldmb) : Queues 0 (modify f) (· = []) :=
  of_run (fun _ => rfl) hqueue hindex hinput hmouse

protected theorem pure (a : α) : Queues 0 (pure a) (· = []) :=
  of_run (f := id) (a := fun _ => a) (fun _ => rfl) (fun _ => rfl) (fun _ => rfl) (fun _ => rfl)
    fun _ => rfl

theorem ite {c : Prop} [Decidable c] {y : VM α} (hx : Queues n x P) (hy : Queues n y P) :
    Queues n (if c then x else y) P := by
  split
  · exact hx
  · exact hy

/-- The second program queues nothing. -/
theorem bind_nil {f : α → VM β} (hx : Queues n x P) (hf : ∀ a, Queues 0 (f a) (· = [])) :
    Queues n (x >>= f) P :=
  (hx.bind hf).mono (fun _ ⟨_, _, hwords, hw, hnil⟩ => by rwa [hwords, hnil, List.append_nil])
    le_rfl

/-- The first program queues nothing. -/
theorem nil_bind {f : α → VM β} (hx : Queues 0 x (· = [])) (hf : ∀ a, Queues k (f a) Q) :
    Queues k (x >>= f) Q :=
  (hx.bind hf).mono (fun _ ⟨_, w', hwords, hnil, hw'⟩ => by rwa [hwords, hnil, List.nil_append])
    (by omega)

theorem carries_bind {es es' : List (Nat × Nat)} {f : α → VM β} (hx : Queues n x (Carries es))
    (hf : ∀ a, Queues k (f a) (Carries es')) : Queues (n + k) (x >>= f) (Carries (es ++ es')) :=
  (hx.bind hf).mono (fun _ ⟨_, _, hwords, hw, hw'⟩ => hwords ▸ hw.append hw') le_rfl

theorem carries_pure (a : α) : Queues 0 (pure a : VM α) (Carries []) :=
  (Queues.pure a).mono (fun _ h => h ▸ carries_nil) le_rfl

/-! ### The functions that queue -/

theorem getMsclock : Queues 0 getMsclock (· = []) :=
  of_run (fun _ => rfl) (fun _ => rfl) (fun _ => rfl) (fun _ => rfl) fun _ => rfl

theorem getSmalltalkEpochTime : Queues 0 getSmalltalkEpochTime (· = []) :=
  of_run (fun _ => rfl) (fun _ => rfl) (fun _ => rfl) (fun _ => rfl) fun _ => rfl

theorem get : Queues 0 (get : VM VirtualMachine) (· = []) :=
  of_run (fun _ => rfl) (fun _ => rfl) (fun _ => rfl) (fun _ => rfl) fun _ => rfl

theorem queueWord (word : Nat) : Queues 1 (queueWord word) (· = [word]) where
  queued s := by
    rw [Crosstalk.queueWord, wlp_bind, wlp_get, wlp_bind, wlp_check]
    intro _
    rw [wlp_bind, wlp_modify, wlp_bind, wlp_get, asynchronousSignal, wlp_bind, wlp_modify,
      wlp_bind, wlp_get, wlp_bind, wlp_check]
    intro _
    rw [wlp_modify]
    exact ⟨⟨[word], rfl, rfl, le_rfl, rfl⟩, rfl, rfl⟩
  ends s hs := by
    rw [Crosstalk.queueWord, wp_bind, wp_get, wp_bind, wp_check]
    refine ⟨hs.1, ?_⟩
    rw [wp_bind, wp_modify, wp_bind, wp_get, asynchronousSignal, wp_bind, wp_modify, wp_bind,
      wp_get, wp_bind, wp_check]
    exact ⟨hs.2, (wp_modify _ _ _).mpr trivial⟩

theorem queueInputWord {type parameter : Nat} (h : type < 16) (h0 : type ≠ 0) (h5 : type ≠ 5) :
    Queues 1 (queueInputWord type parameter) (Carries [(type, parameter % 4096)]) :=
  (queueWord _).mono (fun _ hwords => hwords ▸ carries_inputWord h h0 h5) le_rfl

theorem deltaTimeWord (deltaTime : Nat) :
    Queues 3 (Crosstalk.queueInputWord 0 deltaTime) (Carries []) :=
  (queueWord _).mono (fun _ hwords => hwords ▸ carries_deltaTime deltaTime) (by decide)

theorem absTimeWords (high low : Nat) (hx : Queues 0 x (· = [])) :
    Queues 3 (do
      Crosstalk.queueInputWord 5 0
      Crosstalk.queueWord high
      Crosstalk.queueWord low
      x) (Carries []) := by
  refine ((queueWord _).bind fun _ => (queueWord high).bind fun _ =>
    (queueWord low).bind_nil fun _ => hx).mono ?_ le_rfl
  rintro _ ⟨_, _, rfl, rfl, _, _, rfl, rfl, rfl⟩
  exact carries_absTime high low

theorem queueInputTimeWords : Queues 3 queueInputTimeWords (Carries []) := by
  rw [Crosstalk.queueInputTimeWords]
  refine getMsclock.nil_bind fun now => get.nil_bind fun s => ?_
  have hlast : Queues 0 (modify fun s => { s with lastEventTime := now } : VM Unit) (· = []) :=
    update (fun _ => rfl) (fun _ => rfl) (fun _ => rfl) fun _ => rfl
  have hcount : Queues 0 (modify fun s => { s with eventCount := s.eventCount + 1 } : VM Unit)
      (· = []) := update (fun _ => rfl) (fun _ => rfl) (fun _ => rfl) fun _ => rfl
  refine hcount.nil_bind fun _ => ?_
  refine ite ((deltaTimeWord _).bind_nil fun _ => hlast) ?_
  exact getSmalltalkEpochTime.nil_bind fun absTime => absTimeWords _ _ hlast

theorem time_bind {es : List (Nat × Nat)} (hx : Queues k x (Carries es)) :
    Queues (3 + k) (Crosstalk.queueInputTimeWords >>= fun _ => x) (Carries es) :=
  queueInputTimeWords.carries_bind fun _ => hx

theorem queueModifier (ctrlState mask type key : Nat) (h : type < 16) (h0 : type ≠ 0)
    (h5 : type ≠ 5) : Queues 1 (queueModifier ctrlState mask type key)
      (Carries (if ctrlState &&& mask ≠ 0 then [(type, key % 4096)] else [])) := by
  rw [Crosstalk.queueModifier]
  split
  · exact queueInputWord h h0 h5
  · exact (carries_pure ()).mono (fun _ h => h) (by decide)

end Queues

/-! ## A poll of the devices -/

theorem smalltalkButton_eq {bit button : Nat} (h : smalltalkButton bit = some button) :
    (bit = 1 ∧ button = 130) ∨ (bit = 2 ∧ button = 128) ∨ (bit = 4 ∧ button = 129) := by
  unfold smalltalkButton at h
  split at h <;> cases h <;> simp

theorem smalltalkButton_lt {bit button : Nat} (h : smalltalkButton bit = some button) :
    button < 4096 := by
  obtain ⟨-, rfl⟩ | ⟨-, rfl⟩ | ⟨-, rfl⟩ := smalltalkButton_eq h <;> decide

theorem bmod_word {n : Nat} (hn : n < 256) :
    (Int.bmod n 256 % 65536).toNat = if n < 128 then n else n + 65280 := by
  rw [Int.bmod_def]
  split
  · split
    · omega
    · omega
  · split
    · omega
    · omega

/-- No key that is queued has the code of a button or of a modifier. -/
theorem wordOfChar_lt {c : UInt8} (h : wordOfChar c ≤ 255) : wordOfChar c < 128 := by
  have heq : wordOfChar c = if c.toNat < 128 then c.toNat else c.toNat + 65280 :=
    bmod_word c.toNat_lt
  rw [heq] at h ⊢
  split at h
  · next hlt => rwa [if_pos hlt]
  · omega

/-- The events of a key. -/
def keyEvents (param ctrlState : Nat) : List (Nat × Nat) :=
  if param = 0 ∨ param > 255 ∨ ctrlState > 3 then []
  else (if ctrlState &&& 1 ≠ 0 then [(3, 138)] else []) ++
    ((if ctrlState &&& 2 ≠ 0 then [(3, 136)] else []) ++ ([(3, param)] ++ ([(4, param)] ++
      ((if ctrlState &&& 2 ≠ 0 then [(4, 136)] else []) ++
        (if ctrlState &&& 1 ≠ 0 then [(4, 138)] else [])))))

def buttonEvents (buttons down : Nat) : List (Nat × Nat) :=
  match smalltalkButton buttons with
  | none => []
  | some button => [(if down ≠ 0 then 3 else 4, button)]

/-- The events of the mouse at `x` and `y`. -/
def movementEvents (x y : Int) : List (Nat × Nat) :=
  [(1, (x % 65536).toNat % 4096), (1, (y % 65536).toNat % 4096)]

namespace Queues

theorem handleCookedKeyboardKey (keySeq : UInt8 × UInt8) :
    Queues 9 (handleCookedKeyboardKey keySeq)
      (Carries (keyEvents (wordOfChar keySeq.1) (wordOfChar keySeq.2))) := by
  rw [Crosstalk.handleCookedKeyboardKey]
  generalize wordOfChar keySeq.1 = param, wordOfChar keySeq.2 = ctrlState
  rw [keyEvents]
  split
  · exact (carries_pure ()).mono (fun _ h => h) (by decide)
  · next hkey =>
    have hparam : param % 4096 = param := Nat.mod_eq_of_lt (by omega)
    have hpress : Queues 1 (Crosstalk.queueInputWord 3 param) (Carries [(3, param % 4096)]) :=
      queueInputWord (by decide) (by decide) (by decide)
    have hrelease : Queues 1 (Crosstalk.queueInputWord 4 param) (Carries [(4, param % 4096)]) :=
      queueInputWord (by decide) (by decide) (by decide)
    rw [hparam] at hpress hrelease
    have hdown (mask key : Nat) :=
      queueModifier ctrlState mask 3 key (by decide) (by decide) (by decide)
    have hup (mask key : Nat) :=
      queueModifier ctrlState mask 4 key (by decide) (by decide) (by decide)
    exact time_bind ((hdown 1 138).carries_bind fun _ => (hdown 2 136).carries_bind fun _ =>
      hpress.carries_bind fun _ => hrelease.carries_bind fun _ =>
      (hup 2 136).carries_bind fun _ => hup 1 138)

theorem handleMouseButtonEvent (buttons down : Nat) :
    Queues 4 (handleMouseButtonEvent buttons down) (Carries (buttonEvents buttons down)) := by
  rw [Crosstalk.handleMouseButtonEvent, buttonEvents]
  cases hbutton : smalltalkButton buttons with
  | none => exact (carries_pure ()).mono (fun _ h => h) (by decide)
  | some button =>
    have hlt : button % 4096 = button := Nat.mod_eq_of_lt (smalltalkButton_lt hbutton)
    have hword : Queues 1 (Crosstalk.queueInputWord (if down ≠ 0 then 3 else 4) button)
        (Carries [(if down ≠ 0 then 3 else 4, button % 4096)]) := by
      split <;> exact queueInputWord (by decide) (by decide) (by decide)
    rw [hlt] at hword
    exact time_bind hword

theorem handleMouseMovementEvent (x y : Int) :
    Queues 8 (handleMouseMovementEvent x y) (Carries (movementEvents x y)) := by
  have hword (parameter : Nat) : Queues 1 (Crosstalk.queueInputWord 1 parameter)
      (Carries [(1, parameter % 4096)]) := queueInputWord (by decide) (by decide) (by decide)
  exact time_bind ((hword _).carries_bind fun _ => time_bind (hword _))

end Queues

/-- The word for a button of the mouse, when one has changed. -/
def changeEvents (mouseMb mouseOldmb : Nat) : List (Nat × Nat) :=
  match changedButton mouseMb mouseOldmb with
  | none => []
  | some b => buttonEvents b (mouseMb &&& b)

/-- One of the three buttons has changed, or the mask has not. -/
def Determined (mouseMb mouseOldmb : Nat) : Prop :=
  mouseMb = mouseOldmb ∨ changedButton mouseMb mouseOldmb ≠ none

theorem changeEvents_self (mouseMb : Nat) : changeEvents mouseMb mouseMb = [] := by
  simp [changeEvents, changedButton]

theorem handleMouseButtons_queued (mouseMb : Nat) (s : VirtualMachine) :
    Wlp (handleMouseButtons mouseMb) (fun _ t =>
      Queued 4 (Carries (changeEvents mouseMb s.mouseOldmb)) { s with mouseOldmb := mouseMb } t)
      s := by
  rw [handleMouseButtons, wlp_bind, wlp_get, wlp_ite]
  refine ⟨fun _ => ?_, fun heq => (wlp_pure _ _ _).mpr ?_⟩
  · rw [changeEvents]
    cases changedButton mouseMb s.mouseOldmb with
    | none => exact (wlp_check _ _ _).mpr False.elim
    | some b =>
      rw [wlp_bind, wlp_modify]
      exact (Queues.handleMouseButtonEvent b (mouseMb &&& b)).queued _
  · obtain rfl : mouseMb = s.mouseOldmb := not_not.mp heq
    rw [changeEvents_self]
    exact ⟨⟨[], (List.append_nil _).symm, carries_nil, by decide, by simp⟩, rfl, rfl⟩

theorem handleMouseButtons_ends {mouseMb : Nat} {s : VirtualMachine} (hs : HasRoom 4 s) :
    Wp (handleMouseButtons mouseMb) (fun _ _ => True) s ↔ Determined mouseMb s.mouseOldmb := by
  rw [handleMouseButtons, wp_bind, wp_get, wp_ite, Determined]
  by_cases heq : mouseMb = s.mouseOldmb
  · simp [heq]
  · cases changedButton mouseMb s.mouseOldmb with
    | none => simp [heq]
    | some b =>
      refine iff_of_true ⟨fun _ => ?_, fun h => absurd heq h⟩ (.inr (Option.some_ne_none b))
      rw [wp_bind, wp_modify]
      exact (Queues.handleMouseButtonEvent b (mouseMb &&& b)).ends _ hs

def pollKey (devices : Devices) : VM Unit :=
  if devices.keySeq.1 ≠ 0 then handleCookedKeyboardKey devices.keySeq else pure ()

/-- A poll with an input semaphore. -/
def poll (devices : Devices) (offX offY : Int) : VM Unit := do
  pollKey devices
  handleMouseButtons devices.mouseMb
  handleMouseMovementEvent (devices.x - offX) (devices.y - offY)

theorem processEvents_eq {devices : Devices} {s : VirtualMachine} (h : s.inputSemaphore ≠ 0) :
    processEvents devices s = poll devices s.offX s.offY s := by
  rw [processEvents, bind_of_run (a := s) (t := s) rfl, if_neg h, poll, pollKey]
  split <;> rfl

/-- The events of a poll after one with the mask `mouseOldmb`. -/
def pollEvents (devices : Devices) (mouseOldmb : Nat) (offX offY : Int) : List (Nat × Nat) :=
  keyEvents (wordOfChar devices.keySeq.1) (wordOfChar devices.keySeq.2) ++
    (changeEvents devices.mouseMb mouseOldmb ++
      movementEvents (devices.x - offX) (devices.y - offY))

theorem Queues.pollKey (devices : Devices) : Queues 9 (pollKey devices)
    (Carries (keyEvents (wordOfChar devices.keySeq.1) (wordOfChar devices.keySeq.2))) := by
  rw [Events.pollKey]
  split
  · exact handleCookedKeyboardKey _
  · next h0 =>
    have hparam : wordOfChar devices.keySeq.1 = 0 := by
      rw [not_not.mp h0]
      decide
    rw [keyEvents, if_pos (.inl hparam)]
    exact (carries_pure ()).mono (fun _ h => h) (by decide)

theorem processEvents_queued {devices : Devices} {s : VirtualMachine} (h : s.inputSemaphore ≠ 0) :
    Wlp (processEvents devices) (fun _ t =>
      Queued 21 (Carries (pollEvents devices s.mouseOldmb s.offX s.offY))
        { s with mouseOldmb := devices.mouseMb } t) s := by
  rw [Wlp, processEvents_eq h, ← Wlp, poll, wlp_bind]
  refine ((Queues.pollKey devices).queued s).mono fun _ t ht => ?_
  rw [wlp_bind]
  refine (handleMouseButtons_queued devices.mouseMb t).mono fun _ u hu => ?_
  rw [ht.mouseOldmb] at hu
  refine ((Queues.handleMouseMovementEvent _ _).queued u).mono fun _ v hv => ?_
  exact (ht.withMouse devices.mouseMb).append (hu.append hv)

theorem processEvents_ends {devices : Devices} {s : VirtualMachine} (hs : HasRoom 21 s) :
    Wp (processEvents devices) (fun _ _ => True) s ↔
      Determined devices.mouseMb s.mouseOldmb := by
  have hwp : Wp (processEvents devices) (fun _ _ => True) s ↔
      Wp (poll devices s.offX s.offY) (fun _ _ => True) s := by
    rw [Wp, processEvents_eq hs.1, ← Wp]
  rw [hwp, poll, wp_bind]
  have hkey := (Queues.pollKey devices).queued s
  constructor
  · intro h
    obtain ⟨_, t, -, hbuttons, ht⟩ := h.and_wlp hkey
    rw [wp_bind] at hbuttons
    have hroom : HasRoom 4 t := (ht.hasRoom (k := 12) hs).mono (by decide)
    rw [← ht.mouseOldmb]
    exact (handleMouseButtons_ends hroom).mp (hbuttons.mono fun _ _ _ => trivial)
  · intro h
    refine (((Queues.pollKey devices).ends s (hs.mono (by decide))).and_wlp hkey).mono ?_
    rintro _ t ⟨-, ht⟩
    have hroom : HasRoom 12 t := ht.hasRoom hs
    rw [← ht.mouseOldmb] at h
    rw [wp_bind]
    refine (((handleMouseButtons_ends (hroom.mono (by decide))).mpr h).and_wlp
      (handleMouseButtons_queued devices.mouseMb t)).mono ?_
    rintro _ u ⟨-, hu⟩
    exact (Queues.handleMouseMovementEvent _ _).ends u (hu.hasRoom (k := 8) hroom)

/-! ## Every transition of a button -/

/-- A press or a release of a button. -/
def IsReport (button : Nat) (e : Nat × Nat) : Prop := (e.1 = 3 ∨ e.1 = 4) ∧ e.2 = button

instance (button : Nat) (e : Nat × Nat) : Decidable (IsReport button e) :=
  inferInstanceAs (Decidable (_ ∧ _))

def reports (button : Nat) (words : List Nat) : List (Nat × Nat) :=
  (decode 0 words).filter fun e => IsReport button e

/-- The press or the release of a button whose bit has changed. -/
def transition (mask mouseMb bit button : Nat) : List (Nat × Nat) :=
  if mask &&& bit = 0 ∧ mouseMb &&& bit ≠ 0 then [(3, button)]
  else if mask &&& bit ≠ 0 ∧ mouseMb &&& bit = 0 then [(4, button)]
  else []

structure Poll where
  devices : Devices
  before : VirtualMachine

/-- After a poll with `mask`, the words for each button are those of its transition. -/
def Poll.Reported (mask : Nat) (x : Poll) : Prop :=
  Wp (processEvents x.devices) (fun _ t => ∃ words, t.inputQueue = x.before.inputQueue ++ words ∧
    ∀ bit button, smalltalkButton bit = some button →
      reports button words = transition mask x.devices.mouseMb bit button) x.before

/-- The bit of a button differs. -/
def Changed (mask mouseMb bit : Nat) : Prop := mouseMb &&& bit ≠ mask &&& bit

/-- The mask has not changed, or by the bit of one button. -/
def Poll.Tracked (mask : Nat) (x : Poll) : Prop :=
  x.devices.mouseMb = mask ∨ ∃ b ∈ [1, 2, 4], ∀ bit ∈ [1, 2, 4],
    Changed mask x.devices.mouseMb bit ↔ bit = b

theorem reports_eq {button : Nat} {es : List (Nat × Nat)} {words : List Nat}
    (h : Carries es words) : reports button words = es.filter fun e => IsReport button e := by
  rw [← h.events_eq, events, List.filter_filter, reports]
  refine List.filter_congr fun e _ => ?_
  by_cases he : IsReport button e
  · have h0 : e.1 ≠ 0 := by have := he.1; omega
    simp [he, h0]
  · simp [he]

theorem and_bit {bit button : Nat} (h : smalltalkButton bit = some button) (n : Nat) :
    n &&& bit = 0 ∨ n &&& bit = bit := by
  have htwo (i : Nat) : n &&& 2 ^ i = 0 ∨ n &&& 2 ^ i = 2 ^ i := by
    rw [Nat.and_two_pow]
    cases n.testBit i <;> simp
  obtain ⟨rfl, -⟩ | ⟨rfl, -⟩ | ⟨rfl, -⟩ := smalltalkButton_eq h
  · exact htwo 0
  · exact htwo 1
  · exact htwo 2

theorem transition_of_changed {mask mouseMb bit button : Nat}
    (h : smalltalkButton bit = some button) (hchanged : Changed mask mouseMb bit) :
    transition mask mouseMb bit button = [(if mouseMb &&& bit ≠ 0 then 3 else 4, button)] := by
  have hmask := and_bit h mask
  have hmouse := and_bit h mouseMb
  unfold Changed at hchanged
  unfold transition
  split
  · next hpress => rw [if_pos hpress.2]
  · split
    · next hrelease => rw [if_neg (not_not.mpr hrelease.2)]
    · omega

theorem transition_of_not_changed {mask mouseMb bit button : Nat}
    (h : ¬Changed mask mouseMb bit) : transition mask mouseMb bit button = [] := by
  rw [Changed, not_not] at h
  rw [transition, h, if_neg (fun h => h.2 h.1), if_neg (fun h => h.1 h.2)]

theorem filter_modifier {button : Nat} (c : Prop) [Decidable c] {e : Nat × Nat}
    (h : e.2 ≠ button) :
    (if c then [e] else []).filter (fun e => decide (IsReport button e)) = [] := by
  have he : ¬IsReport button e := fun h' => h h'.2
  split <;> simp [he]

/-- The keys are no buttons. -/
theorem filter_keyEvents {bit button : Nat} (h : smalltalkButton bit = some button) (c : UInt8)
    (ctrlState : Nat) :
    (keyEvents (wordOfChar c) ctrlState).filter (fun e => IsReport button e) = [] := by
  have hbutton : 128 ≤ button ∧ button ≤ 130 := by have := smalltalkButton_eq h; omega
  unfold keyEvents
  split
  · rw [List.filter_nil]
  · have h138 : 138 ≠ button := by omega
    have h136 : 136 ≠ button := by omega
    have hparam : wordOfChar c ≠ button := by
      have := wordOfChar_lt (c := c) (by omega)
      omega
    rw [List.filter_append, filter_modifier _ h138, List.filter_append, filter_modifier _ h136,
      List.filter_append, List.filter_append, List.filter_append, filter_modifier _ h136,
      filter_modifier _ h138]
    simp [IsReport, hparam]

theorem changedButton_eq {mouseMb mask b : Nat} (h : changedButton mouseMb mask = some b) :
    (∃ button, smalltalkButton b = some button) ∧ Changed mask mouseMb b := by
  unfold changedButton at h
  split at h
  · next hb => cases h; exact ⟨⟨129, rfl⟩, hb⟩
  · split at h
    · next hb => cases h; exact ⟨⟨128, rfl⟩, hb⟩
    · split at h
      · next hb => cases h; exact ⟨⟨130, rfl⟩, hb⟩
      · cases h

theorem buttonEvents_eq {bit button down : Nat} (h : smalltalkButton bit = some button) :
    buttonEvents bit down = [(if down ≠ 0 then 3 else 4, button)] := by
  rw [buttonEvents, h]

theorem filter_changeEvents {bit button : Nat} (h : smalltalkButton bit = some button)
    (mask mouseMb : Nat) : (changeEvents mouseMb mask).filter (fun e => IsReport button e) =
      if changedButton mouseMb mask = some bit then transition mask mouseMb bit button else [] := by
  unfold changeEvents
  split
  · next hnone => rw [hnone, if_neg (Option.some_ne_none bit).symm, List.filter_nil]
  · next b hb =>
    obtain ⟨⟨code, hcode⟩, hchanged⟩ := changedButton_eq hb
    rw [hb, buttonEvents_eq hcode]
    by_cases hbit : b = bit
    · subst hbit
      obtain rfl : code = button := Option.some.inj (hcode.symm.trans h)
      rw [if_pos rfl, transition_of_changed h hchanged]
      simp [IsReport]
    · have hne : code ≠ button := by
        have := smalltalkButton_eq h
        have := smalltalkButton_eq hcode
        omega
      rw [if_neg (fun h => hbit (Option.some.inj h))]
      simp [IsReport, hne]

theorem filter_movementEvents (button : Nat) (x y : Int) :
    (movementEvents x y).filter (fun e => IsReport button e) = [] := by
  simp [movementEvents, IsReport]

theorem filter_pollEvents {bit button : Nat} (h : smalltalkButton bit = some button)
    (devices : Devices) (mask : Nat) (offX offY : Int) :
    (pollEvents devices mask offX offY).filter (fun e => IsReport button e) =
      if changedButton devices.mouseMb mask = some bit then
        transition mask devices.mouseMb bit button else [] := by
  rw [pollEvents, List.filter_append, List.filter_append, filter_keyEvents h,
    filter_changeEvents h, filter_movementEvents, List.append_nil, List.nil_append]

/-- What a poll reports of a button. -/
theorem Poll.reported_iff {x : Poll} {mask : Nat} (hroom : HasRoom 21 x.before)
    (hmask : x.before.mouseOldmb = mask) :
    x.Reported mask ↔ Determined x.devices.mouseMb mask ∧
      ∀ bit button, smalltalkButton bit = some button →
        (if changedButton x.devices.mouseMb mask = some bit then
          transition mask x.devices.mouseMb bit button else []) =
        transition mask x.devices.mouseMb bit button := by
  have hends : Wp (processEvents x.devices) (fun _ _ => True) x.before ↔ _ :=
    processEvents_ends hroom
  have hqueued : Wlp (processEvents x.devices) _ x.before := processEvents_queued hroom.1
  rw [hmask] at hends hqueued
  constructor
  · intro h
    refine ⟨hends.mp (h.mono fun _ _ _ => trivial), fun bit button hbit => ?_⟩
    obtain ⟨_, t, -, ⟨words, hwords, hreports⟩, ht⟩ := h.and_wlp hqueued
    obtain ⟨words', hwords', hcarries, -, -⟩ := ht.words
    obtain rfl : words = words' := List.append_cancel_left (hwords.symm.trans hwords')
    rw [← filter_pollEvents hbit, ← reports_eq hcarries, hreports bit button hbit]
  · rintro ⟨hdetermined, hall⟩
    refine ((hends.mpr hdetermined).and_wlp hqueued).mono ?_
    rintro _ t ⟨-, ht⟩
    obtain ⟨words, hwords, hcarries, -, -⟩ := ht.words
    refine ⟨words, hwords, fun bit button hbit => ?_⟩
    rw [reports_eq hcarries, filter_pollEvents hbit, hall bit button hbit]

theorem changedButton_mem {mouseMb mask b : Nat} (h : changedButton mouseMb mask = some b) :
    b ∈ [1, 2, 4] := by
  obtain ⟨⟨button, hbutton⟩, -⟩ := changedButton_eq h
  obtain ⟨rfl, -⟩ | ⟨rfl, -⟩ | ⟨rfl, -⟩ := smalltalkButton_eq hbutton <;> simp

theorem smalltalkButton_of_mem {bit : Nat} (h : bit ∈ [1, 2, 4]) :
    ∃ button, smalltalkButton bit = some button := by
  simp only [List.mem_cons, List.not_mem_nil, or_false] at h
  obtain rfl | rfl | rfl := h
  · exact ⟨130, rfl⟩
  · exact ⟨128, rfl⟩
  · exact ⟨129, rfl⟩

theorem smalltalkButton_mem {bit button : Nat} (h : smalltalkButton bit = some button) :
    bit ∈ [1, 2, 4] := by
  obtain ⟨rfl, -⟩ | ⟨rfl, -⟩ | ⟨rfl, -⟩ := smalltalkButton_eq h <;> simp

theorem not_changed_of_none {mouseMb mask bit : Nat} (h : changedButton mouseMb mask = none)
    (hbit : bit ∈ [1, 2, 4]) : ¬Changed mask mouseMb bit := by
  simp only [List.mem_cons, List.not_mem_nil, or_false] at hbit
  unfold changedButton at h
  split at h
  · cases h
  · split at h
    · cases h
    · split at h
      · cases h
      · obtain rfl | rfl | rfl := hbit <;> assumption

/-- A button that is the only one to change is the one that the poll finds. -/
theorem changedButton_of_changed {mouseMb mask b : Nat} (hb : b ∈ [1, 2, 4])
    (h : ∀ bit ∈ [1, 2, 4], Changed mask mouseMb bit ↔ bit = b) :
    changedButton mouseMb mask = some b := by
  cases hfound : changedButton mouseMb mask with
  | some b' => rw [(h b' (changedButton_mem hfound)).mp (changedButton_eq hfound).2]
  | none => exact absurd ((h b hb).mpr rfl) (not_changed_of_none hfound hb)

/-- One poll reports every transition if and only if it can tell them apart. -/
theorem Poll.reported_iff_tracked {x : Poll} {mask : Nat} (hroom : HasRoom 21 x.before)
    (hmask : x.before.mouseOldmb = mask) : x.Reported mask ↔ x.Tracked mask := by
  rw [reported_iff hroom hmask]
  constructor
  · rintro ⟨hdetermined, hall⟩
    refine hdetermined.imp_right fun hsome => ?_
    obtain ⟨b, hb⟩ := Option.ne_none_iff_exists'.mp hsome
    refine ⟨b, changedButton_mem hb, fun bit hmem => ⟨fun hchanged => ?_, fun heq => ?_⟩⟩
    · -- a transition that is not found is not reported
      obtain ⟨button, hbit⟩ := smalltalkButton_of_mem hmem
      have hreport := hall bit button hbit
      rw [hb, transition_of_changed hbit hchanged] at hreport
      by_contra hne
      rw [if_neg fun h => hne (Option.some.inj h).symm] at hreport
      exact List.cons_ne_nil _ _ hreport.symm
    · exact heq ▸ (changedButton_eq hb).2
  · intro htracked
    constructor
    · refine htracked.imp_right fun ⟨b, hb, h⟩ => ?_
      rw [changedButton_of_changed hb h]
      exact Option.some_ne_none b
    · intro bit button hbit
      by_cases hchanged : Changed mask x.devices.mouseMb bit
      · obtain hsame | ⟨b, hb, h⟩ := htracked
        · exact absurd (by rw [hsame]) hchanged
        · rw [changedButton_of_changed hb h,
            if_pos (congrArg some ((h bit (smalltalkButton_mem hbit)).mp hchanged).symm)]
      · rw [transition_of_not_changed hchanged, ite_self]

/-- Polls one after another. Each has an input semaphore and room for its signals,
and starts with the mask that the one before has left. -/
def IsRun : Nat → List Poll → Prop
  | _, [] => True
  | mask, x :: polls => HasRoom 21 x.before ∧ x.before.mouseOldmb = mask ∧
      Wlp (processEvents x.devices) (fun _ t => IsRun t.mouseOldmb polls) x.before

/-- The words of each poll are those of the transitions from the mask of the poll
before. -/
def AllReported : Nat → List Poll → Prop
  | _, [] => True
  | mask, x :: polls => x.Reported mask ∧ AllReported x.devices.mouseMb polls

def AllTracked : Nat → List Poll → Prop
  | _, [] => True
  | mask, x :: polls => x.Tracked mask ∧ AllTracked x.devices.mouseMb polls

/-- In a run of polls with room in the queue every change of the keyboard and of the buttons is
reported in each of them exactly as long as the polls are tracked. -/
theorem allReported_iff {mask : Nat} {polls : List Poll} (h : IsRun mask polls) :
    AllReported mask polls ↔ AllTracked mask polls := by
  induction polls generalizing mask with
  | nil => exact Iff.rfl
  | cons x polls ih =>
    obtain ⟨hroom, hmask, hrest⟩ := h
    rw [AllReported, AllTracked, ← Poll.reported_iff_tracked hroom hmask]
    refine and_congr_right fun hreported => ?_
    obtain ⟨_, t, -, -, hrun, ht⟩ := hreported.and_wlp (hrest.and (processEvents_queued hroom.1))
    rw [ht.mouseOldmb] at hrun
    exact ih hrun

/-- The first poll, without a key. -/
def firstPoll (mouseMb : Nat) : Poll := ⟨⟨(0, 0), 0, 0, mouseMb⟩, registered 6⟩

theorem isRun_firstPoll (mouseMb : Nat) : IsRun 0 [firstPoll mouseMb] :=
  ⟨⟨Nat.succ_ne_zero 5, show (-1 : Int) + 21 < 4096 by decide⟩, rfl, fun _ _ _ => trivial⟩

/-- One button is pressed. -/
theorem allReported_firstPoll : AllReported 0 [firstPoll 1] :=
  (allReported_iff (isRun_firstPoll 1)).mpr
    ⟨.inr ⟨1, by decide, by unfold Changed; decide⟩, trivial⟩

/-- Two buttons are pressed between two polls. -/
theorem not_allReported_firstPoll : ∃ polls, IsRun 0 polls ∧ ¬AllReported 0 polls := by
  refine ⟨[firstPoll 3], isRun_firstPoll 3, fun h => ?_⟩
  obtain ⟨hroom, hmask, -⟩ := isRun_firstPoll 3
  obtain hsame | ⟨b, hb, hone⟩ := (Poll.reported_iff_tracked hroom hmask).mp h.1
  · cases hsame
  · have h1 : 1 = b := (hone 1 (by decide)).mp (by unfold Changed; decide)
    have h2 : 2 = b := (hone 2 (by decide)).mp (by unfold Changed; decide)
    omega

end Events

end Crosstalk
