import SlsLang.Recognizer

namespace SlsLang

/-- Where recognition stands: between two functions, at the parameters of one, or within its body. -/
inductive Region
  | between
  | header
  | body

namespace Awaiting

/-- The tokens kept for later. -/
def tokens : Awaiting → List Token
  | parameterName type => [type]
  | statement run => run
  | _ => []

def region : Awaiting → Region
  | function | functionName => .between
  | statement _ => .body
  | _ => .header

/-- A token completes a construct, and what is due behind it. -/
inductive Completes (t : Token) : Awaiting → Construct → Awaiting → Prop
  | function : Completes t .functionName (.function t) .parameterList
  | parameter (type : Token) :
    Completes t (.parameterName type) (.parameter type t) .nextParameter
  | body (listAccepted : Bool) : Completes t (.body listAccepted) (.body t) (.statement [])

theorem Completes.kept {a next : Awaiting} {t : Token} {c : Construct} (h : Completes t a c next) :
    next.tokens = [] := by
  cases h <;> rfl

/-- What the answer to a token can be: the token is passed over; or no construct comes of it, and it
joins the tokens kept or all of them are let go, in the same region or between two functions; or it
completes a construct, or ends a statement. -/
inductive Answer (a : Awaiting) (t : Token) : Response → Prop
  | skip : Answer a t (.pass a)
  | pass {next : Awaiting} (stays : next.region = a.region ∨ next.region = .between)
    (kept : next.tokens = [] ∨ next.tokens = t :: a.tokens) : Answer a t (.pass next)
  | refuse (f : SyntaxFault) {next : Awaiting}
    (stays : next.region = a.region ∨ next.region = .between) (kept : next.tokens = []) :
    Answer a t (.refuse t f next)
  | accept {c : Construct} {next : Awaiting} (completes : Completes t a c next) :
    Answer a t (.accept c next)
  | classified {run : List Token} (due : a = .statement run) :
    Answer a t ⟨.statement [], (classify run.reverse).statement?.map .statement,
      (classify run.reverse).faults⟩

theorem answer_respondToType {a : Awaiting} (t : Token) (hr : a.region = .header)
    (ht : a.tokens = []) : Answer a t (respondToType t) := by
  unfold respondToType
  split
  · exact .pass (.inl hr.symm) (.inr (by rw [ht]; rfl))
  · exact .refuse _ (.inl hr.symm) rfl

theorem answer_respondTo (a : Awaiting) (t : Token) : Answer a t (a.respondTo t) := by
  unfold respondTo
  split
  case h_1 =>
    split
    · exact .refuse _ (.inl rfl) rfl
    · split <;> exact .pass (.inl rfl) (.inl rfl)
  case h_2 =>
    split
    · exact .accept .function
    · exact .refuse _ (.inl rfl) rfl
  case h_3 =>
    split
    · exact .pass (.inl rfl) (.inl rfl)
    · exact .refuse _ (.inl rfl) rfl
  case h_4 =>
    split
    · exact .pass (.inl rfl) (.inl rfl)
    split
    · exact .refuse _ (.inl rfl) rfl
    · exact answer_respondToType t rfl rfl
  case h_5 =>
    split
    · exact .pass (.inl rfl) (.inl rfl)
    split
    · exact .refuse _ (.inl rfl) rfl
    split
    · exact .pass (.inl rfl) (.inl rfl)
    · exact .refuse _ (.inl rfl) rfl
  case h_6 => exact answer_respondToType t rfl rfl
  case h_7 type =>
    split
    · exact .accept (.parameter type)
    · exact .refuse _ (.inl rfl) rfl
  case h_8 listAccepted =>
    split
    · exact .accept (.body listAccepted)
    split
    · exact .refuse _ (.inr rfl) rfl
    · exact .pass (.inr rfl) (.inl rfl)
  case h_9 run =>
    split
    · exact .pass (.inr rfl) (.inl rfl)
    split
    · exact .refuse _ (.inr rfl) rfl
    split
    · exact .classified rfl
    · exact .pass (.inl rfl) (.inr rfl)

theorem answer_respond (a : Awaiting) (t : Token) : Answer a t (a.respond t) := by
  unfold respond
  split
  · exact .skip
  · exact a.answer_respondTo t

end Awaiting

end SlsLang
