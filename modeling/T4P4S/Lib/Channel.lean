/-
Channels that keep messages in order.

Something that is sent asks for some messages; these come out one by one, and a channel
may lose some of them.

* **`delivered_sublist`** — what has come out of a channel is part of what was asked for,
  in order, and nothing comes out twice;
* **`delivered_eq`** — if nothing was lost, it is all that was asked for, up to what is
  still underway.
-/
import T4P4S.Lib.Simulation

namespace Transition

variable {D β : Type*}

/-- What is seen of a channel: something is sent, and taken or not; messages that are underway
are lost; a message comes out. -/
inductive ChannelEvent (D β : Type*)
  | sent (d : D) (taken : Bool)
  | lost
  | delivered (m : β)

namespace ChannelEvent

/-- Nothing is lost with the event. -/
def Lossless : ChannelEvent D β → Prop
  | sent _ taken => taken = true
  | lost => False
  | delivered _ => True

/-- The messages asked for. -/
def asked (asks : D → List β) : ChannelEvent D β → List β
  | sent d _ => asks d
  | _ => []

def message : ChannelEvent D β → Option β
  | delivered m => some m
  | _ => none

end ChannelEvent

/-- All that was asked for. -/
def asked (asks : D → List β) (tr : List (ChannelEvent D β)) : List β :=
  tr.flatMap (ChannelEvent.asked asks)

/-- All that has come out. -/
def delivered (tr : List (ChannelEvent D β)) : List β := tr.filterMap ChannelEvent.message

/-- The state is the list of what is underway. -/
inductive ChannelStep (asks : D → List β) : List β → Option (ChannelEvent D β) → List β → Prop
  | sent (q : List β) (d : D) : ChannelStep asks q (some (.sent d true)) (q ++ asks d)
  | refused (q : List β) (d : D) : ChannelStep asks q (some (.sent d false)) q
  | lost {q q' : List β} (h : q'.Sublist q) : ChannelStep asks q (some .lost) q'
  | delivered (m : β) (q : List β) : ChannelStep asks (m :: q) (some (.delivered m)) q

def channel (asks : D → List β) : LabelledSystem (List β) (ChannelEvent D β) where
  init q := q = []
  step := ChannelStep asks

section Channel

variable {asks : D → List β} {tr : List (ChannelEvent D β)} {q q' : List β}
  {l : Option (ChannelEvent D β)}

theorem asked_append (tr tr' : List (ChannelEvent D β)) :
    asked asks (tr ++ tr') = asked asks tr ++ asked asks tr' := List.flatMap_append

theorem delivered_append (tr tr' : List (ChannelEvent D β)) :
    delivered (tr ++ tr') = delivered tr ++ delivered tr' := List.filterMap_append

theorem channelStep_sublist (h : ChannelStep asks q l q') :
    (delivered l.toList ++ q').Sublist (q ++ asked asks l.toList) := by
  cases h with
  | sent _ d =>
    show (q ++ asks d).Sublist (q ++ (asks d ++ []))
    rw [List.append_nil]
  | refused _ d => exact List.sublist_append_left ..
  | lost hlost => exact hlost.trans (List.sublist_append_left ..)
  | delivered m _ =>
    show (m :: q').Sublist (m :: q' ++ [])
    rw [List.append_nil]

theorem channelStep_eq (h : ChannelStep asks q l q') (hl : ∀ e ∈ l, e.Lossless) :
    delivered l.toList ++ q' = q ++ asked asks l.toList := by
  cases h with
  | sent _ d =>
    show q ++ asks d = q ++ (asks d ++ [])
    rw [List.append_nil]
  | refused _ d => exact absurd (hl _ rfl) Bool.false_ne_true
  | lost hlost => exact (hl _ rfl).elim
  | delivered m _ => exact (List.append_nil (m :: q')).symm

theorem delivered_sublist (h : (channel asks).Trace tr q) :
    (delivered tr ++ q).Sublist (asked asks tr) := by
  induction h with
  | init h =>
    obtain rfl : _ = [] := h
    exact List.Sublist.refl _
  | step _ hstep ih =>
    rw [delivered_append, asked_append, List.append_assoc]
    refine ((List.Sublist.refl _).append (channelStep_sublist hstep)).trans ?_
    rw [← List.append_assoc]
    exact ih.append (List.Sublist.refl _)

theorem delivered_eq (h : (channel asks).Trace tr q) (hlossless : ∀ e ∈ tr, e.Lossless) :
    delivered tr ++ q = asked asks tr := by
  induction h with
  | init h =>
    obtain rfl : _ = [] := h
    rfl
  | step _ hstep ih =>
    obtain ⟨htr, hlast⟩ := List.forall_mem_append.mp hlossless
    rw [delivered_append, asked_append, List.append_assoc,
      channelStep_eq hstep fun e he => hlast e (Option.mem_toList.mpr he), ← List.append_assoc,
      ih htr]

end Channel

end Transition
