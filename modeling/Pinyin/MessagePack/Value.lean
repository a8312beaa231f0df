import Pinyin.Decimal.Shortest
import Pinyin.Text.Quoted

/-!
# Pinyin.MessagePack.Value

The values of the MessagePack data format, and the text in which messages show
one.
-/

namespace Pinyin.MessagePack

/-- A value.  A float is kept as its bits, a map as its entries in order. -/
inductive Value where
  | nil
  | bool (b : Bool)
  | int (n : Int)
  | float (bits : UInt64)
  | text (s : String)
  | binary (bs : List UInt8)
  | list (items : List Value)
  | map (entries : List (Value × Value))
  | extension (kind : Nat) (bs : List UInt8)
  | timestamp (seconds : Int) (nanoseconds : Nat)

namespace Value

/-- The value under a text key of a map. -/
def lookup? (key : String) : List (Value × Value) → Option Value
  | [] => none
  | (text s, v) :: rest => if s = key then some v else lookup? key rest
  | _ :: rest => lookup? key rest

mutual

/-- The text of a value as messages show it. -/
def describe : Value → List Char
  | nil => "None".toList
  | bool b => (if b then "True" else "False").toList
  | int n => (toString n).toList
  | float bits => (Binary64.ofBits bits).shortest.toList
  | text s => quoteText s.toList
  | binary bs => quoteBytes bs
  | list items => '[' :: describeItems items ++ [']']
  | map entries => '\x7b' :: describeEntries entries ++ ['\x7d']
  | extension kind bs =>
    "ExtType(code=".toList ++ (toString kind).toList ++ ", data=".toList
      ++ quoteBytes bs ++ [')']
  | timestamp seconds nanoseconds =>
    "Timestamp(seconds=".toList ++ (toString seconds).toList ++ ", nanoseconds=".toList
      ++ (toString nanoseconds).toList ++ [')']

/-- The items of a list, separated by commas. -/
def describeItems : List Value → List Char
  | [] => []
  | [v] => describe v
  | v :: rest => describe v ++ ", ".toList ++ describeItems rest

/-- The entries of a map, separated by commas. -/
def describeEntries : List (Value × Value) → List Char
  | [] => []
  | [(k, v)] => describe k ++ ": ".toList ++ describe v
  | (k, v) :: rest =>
    describe k ++ ": ".toList ++ describe v ++ ", ".toList ++ describeEntries rest

end

end Value

end Pinyin.MessagePack
