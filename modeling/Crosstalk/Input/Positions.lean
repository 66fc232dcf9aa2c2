import Crosstalk.Input.Events

/-!
# The position of the mouse

An image gets the position of the mouse from the words of the input queue, or asks
for it. In the words an x has type 1 and a y has type 2. The answer to the question
is cut to the display; the words are not.
-/

namespace Crosstalk

namespace Positions

open Events

/-! ## The two positions -/

/-- A coordinate of the screen, cut to a display of `size` at the offset `off`. -/
def displayCoordinate (off size t : Int) : Int :=
  let t := if t < off then off else t
  let t := if t ≥ off + size then off + size - 1 else t
  t - off

/-- The mouse on a display of the given width and height. -/
def getCursorLocation (displayWidth displayHeight : Int) (devices : Devices)
    (s : VirtualMachine) : Int × Int :=
  (displayCoordinate s.offX displayWidth devices.x,
    displayCoordinate s.offY displayHeight devices.y)

/-- The parameter of the last word of a type. -/
def latest (type : Nat) (words : List Nat) : Option Int :=
  ((events words).filter fun e => e.1 = type).getLast?.map fun e => (e.2 : Int)

/-- The position that the words give is the one that a question gets. -/
def PositionsAgree (displayWidth displayHeight : Int) (devices : Devices) (s : VirtualMachine) :
    Prop :=
  Wp (processEvents devices) (fun _ t => ∃ words, t.inputQueue = s.inputQueue ++ words ∧
    (latest 1 words, latest 2 words) =
      ((getCursorLocation displayWidth displayHeight devices s).map some some)) s

/-! ## The words of a poll -/

theorem latest_eq {type : Nat} {es : List (Nat × Nat)} {words : List Nat}
    (h : Carries es words) :
    latest type words = (es.filter fun e => e.1 = type).getLast?.map fun e => (e.2 : Int) := by
  rw [latest, h.events_eq]

theorem filter_eq_nil {es : List (Nat × Nat)} {type : Nat} (h : ∀ e ∈ es, e.1 ≠ type) :
    es.filter (fun e => e.1 = type) = [] := by
  rw [List.filter_eq_nil_iff]
  intro e he
  simpa using h e he

theorem keyEvents_type {param ctrlState : Nat} :
    ∀ e ∈ keyEvents param ctrlState, e.1 = 3 ∨ e.1 = 4 := by
  unfold keyEvents
  split
  · exact List.forall_mem_nil _
  · simp only [List.mem_append, List.mem_ite_nil_right, List.mem_singleton]
    rintro e (⟨-, rfl⟩ | ⟨-, rfl⟩ | rfl | rfl | ⟨-, rfl⟩ | ⟨-, rfl⟩) <;> simp

theorem changeEvents_type {mouseMb mouseOldmb : Nat} :
    ∀ e ∈ changeEvents mouseMb mouseOldmb, e.1 = 3 ∨ e.1 = 4 := by
  unfold changeEvents
  split
  · exact List.forall_mem_nil _
  · next b hb =>
    obtain ⟨⟨button, hbutton⟩, -⟩ := changedButton_eq hb
    rw [buttonEvents_eq hbutton, List.forall_mem_singleton]
    dsimp only
    split <;> simp

/-- Both words of the mouse have type 1. -/
theorem pollEvents_type {devices : Devices} {mouseOldmb : Nat} {offX offY : Int} :
    ∀ e ∈ pollEvents devices mouseOldmb offX offY, e.1 = 1 ∨ e.1 = 3 ∨ e.1 = 4 := by
  simp only [pollEvents, List.forall_mem_append]
  exact ⟨fun e he => .inr (keyEvents_type e he), fun e he => .inr (changeEvents_type e he),
    fun e he => .inl (by simp only [movementEvents, List.mem_cons] at he; grind)⟩

/-- A poll gives no y. -/
theorem latest_processEvents {devices : Devices} {s : VirtualMachine} :
    Wlp (processEvents devices) (fun _ t => ∀ words, t.inputQueue = s.inputQueue ++ words →
      latest 2 words = none) s := by
  by_cases hinput : s.inputSemaphore = 0
  · rw [processEvents, wlp_bind, wlp_get, if_pos hinput, wlp_pure]
    intro words hwords
    obtain rfl : words = [] := List.self_eq_append_right.mp hwords
    rfl
  · refine (processEvents_queued hinput).mono fun _ t ht words hwords => ?_
    obtain ⟨words', hwords', hcarries, -, -⟩ := ht.words
    obtain rfl : words = words' := List.append_cancel_left (hwords.symm.trans hwords')
    rw [latest_eq hcarries, filter_eq_nil fun e he => ?_, List.getLast?_nil, Option.map_none]
    have := pollEvents_type e he
    omega

/-- Whatever the devices tell and the queue holds, the positions never agree: the second word of
a movement has the type of the first one, and no word of the type 2 is queued. -/
theorem not_positionsAgree (displayWidth displayHeight : Int) (devices : Devices)
    (s : VirtualMachine) : ¬PositionsAgree displayWidth displayHeight devices s := by
  intro h
  obtain ⟨_, t, -, ⟨words, hwords, hposition⟩, hlatest⟩ := h.and_wlp latest_processEvents
  have hy := congrArg Prod.snd hposition
  rw [hlatest words hwords] at hy
  exact Option.some_ne_none _ hy.symm

/-- A mouse on the display, without a key or a button. -/
def mouseAt (x y : Int) : Devices := ⟨(0, 0), x, y, 0⟩

theorem events_tenTwenty : Wp (processEvents (mouseAt 10 20)) (fun _ t => ∃ words,
    t.inputQueue = (registered 6).inputQueue ++ words ∧ events words = [(1, 10), (1, 20)])
      (registered 6) := by
  have hroom : HasRoom 21 (registered 6) :=
    ⟨Nat.succ_ne_zero 5, show (-1 : Int) + 21 < 4096 by decide⟩
  have hends : Wp (processEvents (mouseAt 10 20)) (fun _ _ => True) (registered 6) :=
    (processEvents_ends hroom).mpr (.inl rfl)
  refine (hends.and_wlp (processEvents_queued hroom.1)).mono ?_
  rintro _ t ⟨-, ht⟩
  obtain ⟨words, hwords, hcarries, -, -⟩ := ht.words
  exact ⟨words, hwords, hcarries.events_eq.trans (by decide)⟩

/-- The words for the point 10@20 give an x of 20 and no y. -/
theorem not_positionsAgree_tenTwenty :
    getCursorLocation 640 480 (mouseAt 10 20) (registered 6) = (10, 20) ∧
      ¬PositionsAgree 640 480 (mouseAt 10 20) (registered 6) := by
  refine ⟨by decide, fun h => ?_⟩
  obtain ⟨_, t, -, ⟨words, hwords, hposition⟩, words', hwords', hevents⟩ :=
    h.and_wlp events_tenTwenty.toWlp
  obtain rfl : words = words' := List.append_cancel_left (hwords.symm.trans hwords')
  have htwo : latest 2 words = none := by
    rw [latest, hevents]
    rfl
  have hy := congrArg Prod.snd hposition
  rw [htwo] at hy
  exact Option.some_ne_none _ hy.symm

/-! ## Inside the display -/

/-- On the display the cut changes nothing. -/
theorem displayCoordinate_inside {off size t : Int} (h : off ≤ t) (h' : t < off + size) :
    displayCoordinate off size t = t - off := by
  simp only [displayCoordinate]
  rw [if_neg (by omega), if_neg (by omega)]

/-- On a display that 12 bits can address, the words carry the coordinates that a
question gets, an x and again an x. -/
theorem movementEvents_inside {displayWidth displayHeight : Int} {devices : Devices}
    {s : VirtualMachine} (hwidth : displayWidth ≤ 4095) (hheight : displayHeight ≤ 4095)
    (hx : s.offX ≤ devices.x) (hx' : devices.x < s.offX + displayWidth)
    (hy : s.offY ≤ devices.y) (hy' : devices.y < s.offY + displayHeight) :
    (movementEvents (devices.x - s.offX) (devices.y - s.offY)).map
      (fun e => (e.1, (e.2 : Int))) =
      [(1, (getCursorLocation displayWidth displayHeight devices s).1),
        (1, (getCursorLocation displayWidth displayHeight devices s).2)] := by
  rw [getCursorLocation, displayCoordinate_inside hx hx', displayCoordinate_inside hy hy']
  simp only [movementEvents, List.map_cons, List.map_nil, List.cons.injEq, Prod.mk.injEq,
    true_and, and_true]
  omega

end Positions

end Crosstalk
