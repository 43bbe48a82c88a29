import Khttp.ParserSteps

/-!
# The pieces of the texts

The parser reports a target, a name, a value or a body in as many pieces as its buffers make of
it. Lists of callbacks are compared up to these pieces.
-/

namespace Khttp

open Lib

/-- What a text is about. -/
inductive TextKind where
  | url (method : Bytes)
  | headerField (major minor : ℕ)
  | headerValue
  | body
  deriving DecidableEq, Repr

/-- The callback for a piece of a text. -/
def TextKind.callback (text : Bytes) : TextKind → ParserCallback
  | .url method => .url method text
  | .headerField major minor => .headerField major minor text
  | .headerValue => .headerValue text
  | .body => .body text

/-- The text of a callback. -/
def ParserCallback.text : ParserCallback → Option (TextKind × Bytes)
  | .url method fragment => some (.url method, fragment)
  | .headerField major minor fragment => some (.headerField major minor, fragment)
  | .headerValue fragment => some (.headerValue, fragment)
  | .body fragment => some (.body, fragment)
  | .messageBegin | .headersComplete | .messageComplete => none

/-- Two pieces of one text. -/
def ParserCallback.join (a b : ParserCallback) : Option ParserCallback :=
  a.text.bind fun (k, t) => b.text.bind fun (l, u) =>
    if k = l then some (k.callback (t ++ u)) else none

/-- The text of a piece. -/
@[simp] theorem TextKind.text_callback (k : TextKind) (text : Bytes) :
    (k.callback text).text = some (k, text) := by
  cases k <;> rfl

/-- A piece is the callback for its text. -/
theorem ParserCallback.eq_of_text {cb : ParserCallback} {k : TextKind} {text : Bytes}
    (h : cb.text = some (k, text)) : cb = k.callback text := by
  cases cb <;> simp only [ParserCallback.text, Option.some.injEq, Prod.mk.injEq, reduceCtorEq] at h
  all_goals
    obtain ⟨rfl, rfl⟩ := h
    rfl

/-- Two pieces of one text are joined. -/
theorem TextKind.join_callback (k : TextKind) (t u : Bytes) :
    (k.callback t).join (k.callback u) = some (k.callback (t ++ u)) := by
  simp [ParserCallback.join]

/-- What can be joined are pieces of one text. -/
theorem ParserCallback.exists_of_join {a b c : ParserCallback} (h : a.join b = some c) :
    ∃ k t u, a.text = some (k, t) ∧ b.text = some (k, u) ∧ c = k.callback (t ++ u) := by
  obtain ⟨⟨k, t⟩, ha, h⟩ := Option.bind_eq_some_iff.mp h
  obtain ⟨⟨l, u⟩, hb, h⟩ := Option.bind_eq_some_iff.mp h
  obtain ⟨rfl, hc⟩ := Option.ite_none_right_eq_some.mp h
  exact ⟨k, t, u, ha, hb, (Option.some.inj hc).symm⟩

/-- The pieces of texts can be joined in any order. -/
theorem joining : Joining ParserCallback.join where
  assoc := by
    intro a b c ab bc hab hbc
    obtain ⟨k, t, u, ha, hb, rfl⟩ := ParserCallback.exists_of_join hab
    obtain ⟨l, u', v, hb', hc, rfl⟩ := ParserCallback.exists_of_join hbc
    obtain ⟨rfl, rfl⟩ := Prod.mk.inj (Option.some.inj (hb.symm.trans hb'))
    exact ⟨k.callback (t ++ u ++ v), by simp [ParserCallback.join, hc],
      by simp [ParserCallback.join, ha]⟩
  none := by
    intro a b c ab hab hbc
    obtain ⟨k, t, u, ha, hb, rfl⟩ := ParserCallback.exists_of_join hab
    simpa [ParserCallback.join, hb] using hbc

/-- The same callbacks, up to the pieces of the texts. -/
def SameTexts (cs ds : List ParserCallback) : Prop :=
  coalesce ParserCallback.join cs = coalesce ParserCallback.join ds

namespace SameTexts

variable {as bs cs ds : List ParserCallback}

theorem refl (cs : List ParserCallback) : SameTexts cs cs := rfl

theorem symm (h : SameTexts cs ds) : SameTexts ds cs := Eq.symm h

theorem trans (h : SameTexts as bs) (h' : SameTexts bs cs) : SameTexts as cs := Eq.trans h h'

theorem append_left (h : SameTexts as bs) (cs : List ParserCallback) :
    SameTexts (as ++ cs) (bs ++ cs) :=
  coalesce_append_left joining cs h

theorem append_right (h : SameTexts as bs) (cs : List ParserCallback) :
    SameTexts (cs ++ as) (cs ++ bs) :=
  coalesce_append_right cs h

theorem append (h : SameTexts as bs) (h' : SameTexts cs ds) : SameTexts (as ++ cs) (bs ++ ds) :=
  (h.append_left cs).trans (h'.append_right bs)

end SameTexts

/-- Two pieces of a text. -/
theorem TextKind.sameTexts (k : TextKind) (t u : Bytes) (cs : List ParserCallback) :
    SameTexts (k.callback t :: k.callback u :: cs) (k.callback (t ++ u) :: cs) :=
  coalesce_join joining (k.join_callback t u) [] cs

/-- The text that a mark is about. -/
def ParserMark.kind (p : HttpParser) : ParserMark → TextKind
  | .headerField => .headerField p.httpMajor p.httpMinor
  | .headerValue => .headerValue
  | .url => .url (httpMethodStr p.method)
  | .body => .body

/-- The callback of a mark is one for a piece of its text. -/
theorem ParserMark.callback_eq (m : ParserMark) (p : HttpParser) (text : Bytes) :
    m.callback p text = (m.kind p).callback text := by
  cases m <;> rfl

/-- The callback for what is pending. -/
def pendingCallback (p : HttpParser) (pending : Option (ParserMark × Bytes)) :
    Option ParserCallback :=
  pending.map fun (m, text) => (m.kind p).callback text

end Khttp
