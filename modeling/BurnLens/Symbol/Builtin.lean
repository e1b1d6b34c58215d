import BurnLens.Symbol.Table

/-! # The predeclared namespace

Functions and types that every file can use. They have no file and no place, and the name of their
table is reserved. -/

namespace BurnLens.Builtin

/-- The reserved name of the predeclared table. -/
def uri : String := "__builtin__"

def primitiveTypes : List String := ["int", "float", "string", "bool"]

def recordTypes : List (String × List (String × String)) := [
  ("Date", [("year", "int"), ("month", "int"), ("day", "int")]),
  ("Time", [("hours", "int"), ("minutes", "int"), ("seconds", "int"), ("milliseconds", "int")])]

/-- A predeclared function. -/
def function (name : String) (parameters : List (String × String)) (returnType doc : String) :
    Signature where
  name := name
  parameters := parameters.map fun p => ⟨p.1, p.2⟩
  returnType := returnType
  documentation := some doc

def functions : List Signature := [
  function "print" [("value", "any")] ""
    "Prints a value to the console.",
  function "toString" [("value", "any")] "string"
    "Converts a value to a string representation.",
  function "input" [("prompt", "string")] "string"
    "Reads a line of input from the user with the given prompt.",
  function "now" [] "Date"
    "Returns the current date as a Date object.",
  function "formatDate" [("date", "Date")] "string"
    "Formats a Date object as a string.",
  function "createDate" [("year", "int"), ("month", "int"), ("day", "int")] "Date"
    "Creates a new Date object with the specified year, month, and day.",
  function "power" [("base", "int"), ("exp", "int")] "int"
    "Calculates the power of a number (base^exp).",
  function "isEven" [("num", "int")] "bool"
    "Checks if a number is even.",
  function "join" [("str1", "string"), ("str2", "string"), ("separator", "string")] "string"
    "Joins two strings with a separator.",
  function "currentYear" [] "int"
    "Returns the current year.",
  function "currentMonth" [] "int"
    "Returns the current month (1-12).",
  function "currentDay" [] "int"
    "Returns the current day of the month.",
  function "addDays" [("date", "Date"), ("days", "int")] "Date"
    "Adds the specified number of days to a date.",
  function "subtractDays" [("date", "Date"), ("days", "int")] "Date"
    "Subtracts the specified number of days from a date.",
  function "isLeapYear" [("year", "int")] "bool"
    "Checks if a year is a leap year.",
  function "daysInMonth" [("year", "int"), ("month", "int")] "int"
    "Returns the number of days in the specified month.",
  function "dayOfWeek" [("date", "Date")] "int"
    "Returns the day of the week (0 = Sunday, 6 = Saturday).",
  function "createTime"
    [("hours", "int"), ("minutes", "int"), ("seconds", "int"), ("milliseconds", "int")] "Time"
    "Creates a new Time object with the specified hours, minutes, seconds, and milliseconds.",
  function "currentTime" [] "Time"
    "Returns the current time as a Time object.",
  function "formatTime" [("time", "Time"), ("includeMilliseconds", "bool")] "string"
    "Formats a Time object as HH:MM:SS, or HH:MM:SS.mmm with milliseconds.",
  function "split" [("text", "string"), ("delimiter", "string")] "array"
    "Splits a string by the given delimiter and returns an array of substrings.",
  function "charAt" [("text", "string"), ("index", "int")] "string"
    "Returns the character at the specified index in a string.",
  function "parseInt" [("text", "string")] "int"
    "Parses a string into an integer.",
  function "size" [("text", "string")] "int"
    "Returns the length of a string.",
  function "substring" [("text", "string"), ("start", "int"), ("end", "int")] "string"
    "Returns the substring from start (inclusive) to end (exclusive).",
  function "append" [("items", "array"), ("item", "any")] "array"
    "Appends an item to an array and returns the new array."]

/-- The predeclared table; the primitive types come first. -/
def table : SymbolTable where
  uri := uri
  types := .ofList (
    (primitiveTypes.map fun name => (name, { name })) ++
    recordTypes.map fun t => (t.1, { name := t.1, fields := .ofList t.2 }))
  functions := .ofList (functions.map fun f => (f.name, f))

end BurnLens.Builtin
