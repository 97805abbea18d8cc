import WordLink.Definition
import WordLink.Json.Record

/-!
# Definitions in JSON

The fields and settings as they are read from JSON. A record that tells its kind is taken in as a
whole, so whatever stands in it has to be readable.
-/
namespace WordLink

namespace Json

def parseReadable? (text : String) : Option Value :=
  (Value.parse? text).filter (Value.readable Value.nestingLimit)

def reader : Reader Value where
  flag? := Value.bool?
  byte? := Value.byte?
  word? := Value.word?
  count? := Value.count?
  wordOrNone? := Value.nullOr? Value.word?
  record? fields text := (Value.parse? text).bind (arguments? fields)
  tagged? tagName kinds text := (parseReadable? text).bind (Json.tagged? tagName kinds)
  taggedList? tagName kinds text := (parseReadable? text).bind (Json.taggedList? tagName kinds)

end Json

def IntegerField.parse (text : String) : Except Error IntegerField :=
  Json.reader.parse (schema Json.reader) text

def TextField.parse (text : String) : Except Error TextField :=
  Json.reader.parse (schema Json.reader) text

def Field.parse (text : String) : Except Error Field :=
  Json.reader.parseTagged tagName (kinds Json.reader) text

def Field.parseList (text : String) : Except Error (List Field) :=
  Json.reader.parseTaggedList tagName (kinds Json.reader) text

def Receiver.Settings.parse (text : String) : Except Error Settings :=
  Json.reader.parse (schema Json.reader) text

def Sender.Settings.parse (text : String) : Except Error Settings :=
  Json.reader.parse (schema Json.reader) text

end WordLink
