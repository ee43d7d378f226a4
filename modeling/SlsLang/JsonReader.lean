import SlsLang.JsonToken

namespace SlsLang

/-- An array or object that is still open, with what it holds so far, latest first. The value of an
open object's last key is still to come. -/
inductive JsonFrame
  | array (elements : List JsonValue)
  | object (entries : List (String × JsonValue)) (key : String)

/-- What is due next in a JSON text, and what is open around it, innermost first. -/
inductive JsonState
  | value (frames : List JsonFrame)
  | firstElement (frames : List JsonFrame)
  | firstKey (frames : List JsonFrame)
  | key (frames : List JsonFrame) (entries : List (String × JsonValue))
  | colon (frames : List JsonFrame) (entries : List (String × JsonValue)) (key : String)
  /-- A comma or the end of what is open. Where nothing is open the text has to end. -/
  | separator (frames : List JsonFrame) (value : JsonValue)

/-- No more arrays and objects than this may be open at a time. -/
def maxJsonDepth : Nat := 127

namespace JsonState

/-- A value, or the start of one. -/
def startValue? (frames : List JsonFrame) : JsonToken → Option JsonState
  | .string s => some (separator frames (.string s))
  | .bare word => some (separator frames word)
  | .arrayStart => if frames.length < maxJsonDepth then some (firstElement frames) else none
  | .objectStart => if frames.length < maxJsonDepth then some (firstKey frames) else none
  | _ => none

def step? (state : JsonState) (token : JsonToken) : Option JsonState :=
  match state, token with
  | firstElement frames, .arrayEnd => some (separator frames (.array []))
  | firstElement frames, token => startValue? (.array [] :: frames) token
  | value frames, token => startValue? frames token
  | firstKey frames, .objectEnd => some (separator frames (.object []))
  | firstKey frames, .string name => some (colon frames [] name)
  | key frames entries, .string name => some (colon frames entries name)
  | colon frames entries name, .colon => some (value (.object entries name :: frames))
  | separator (.array elements :: frames) element, .comma =>
    some (value (.array (element :: elements) :: frames))
  | separator (.array elements :: frames) element, .arrayEnd =>
    some (separator frames (.array (element :: elements).reverse))
  | separator (.object entries name :: frames) entry, .comma =>
    some (key frames ((name, entry) :: entries))
  | separator (.object entries name :: frames) entry, .objectEnd =>
    some (separator frames (.ofEntries ((name, entry) :: entries).reverse))
  | _, _ => none

/-- The document that has been read, if nothing is missing. -/
def document? : JsonState → Option JsonValue
  | separator [] document => some document
  | _ => none

end JsonState

/-- Reads a text that holds one JSON document and nothing else. -/
def readJson? (text : String) : Option JsonValue := do
  let tokens ← JsonToken.all? text.toList
  let state ← tokens.foldlM JsonState.step? (.value [])
  state.document?

end SlsLang
