import Mathlib.Data.FinEnum

/-!
# Character classes

The macros of `strHandle.h` and the character tests of `strHandle.c`. A `char` is a
byte; none of the tests tells the signed from the unsigned reading of one, since
every range they name lies below 128.
-/

namespace CiteParser

/-- `isBlank`: space, line feed, tab and carriage return. -/
def isBlank (a : UInt8) : Bool :=
  a == ' '.toUInt8 || a == '\n'.toUInt8 || a == '\t'.toUInt8 || a == '\r'.toUInt8

/-- The characters named by the macro `isDelimiter`, in its order. -/
def delimiters : List UInt8 :=
  [' ', '\x22', '\x27', '\x60', ',', '.', '\n', '\t', '\r', '|', '(', ')', '<', '>',
    '[', ']', '\x7b', '\x7d', '/', '$', '#', '^', '&', '*', '@', '!', '?', ';', ':',
    '|', '\x5c', '_', '+'].map Char.toUInt8

def isDelimiter (a : UInt8) : Bool := delimiters.contains a

def isUppercaseCode (a : UInt8) : Bool := 'A'.toUInt8 ≤ a && a ≤ 'Z'.toUInt8

def isLowercaseCode (a : UInt8) : Bool := 'a'.toUInt8 ≤ a && a ≤ 'z'.toUInt8

/-- A decimal digit, as the range tests of the source spell it. -/
def isDigitCode (a : UInt8) : Bool := '0'.toUInt8 ≤ a && a ≤ '9'.toUInt8

def isAsciiCode (a : UInt8) : Bool := isUppercaseCode a || isLowercaseCode a

def isAsciiOrDigit (a : UInt8) : Bool := isAsciiCode a || isDigitCode a

/-- `isConnectCh`: the tilde and the hyphen. -/
def isConnectCh (a : UInt8) : Bool := a == '~'.toUInt8 || a == '-'.toUInt8

/-- `DIGITLIKE`: a digit or a letter that scanned text confuses with one. -/
def digitLike (x : UInt8) : Bool :=
  isDigitCode x || x == 'l'.toUInt8 || x == 'I'.toUInt8 || x == 'i'.toUInt8 ||
    x == 'o'.toUInt8 || x == 'O'.toUInt8

/-- `VALDIG`: the value of a digit or of a character read as one, `none` for -1. -/
def valDig (x : UInt8) : Option Nat :=
  if isDigitCode x then some (x - '0'.toUInt8).toNat
  else if x == 'I'.toUInt8 || x == 'i'.toUInt8 || x == 'l'.toUInt8 || x == '['.toUInt8 ||
      x == ']'.toUInt8 then some 1
  else if x == 'o'.toUInt8 || x == 'O'.toUInt8 then some 0
  else none

/-- The class by which `spilitContent` breaks tokens: 1 digit, 2 letter, 0 unset. -/
def checkCharType (a : UInt8) : Nat :=
  if '1'.toUInt8 < a && a ≤ '9'.toUInt8 then 1
  else if !digitLike a && isAsciiOrDigit a then 2
  else 0

/-- The class by which `spilitStr` breaks a token into pieces. -/
def charType (ch : UInt8) : Nat :=
  if isUppercaseCode ch then 1
  else if isLowercaseCode ch then 2
  else if isDigitCode ch then 3
  else 0

/-- No delimiter is a letter or a digit. -/
theorem not_isAsciiOrDigit_of_isDelimiter :
    ∀ a : UInt8, isDelimiter a = true → isAsciiOrDigit a = false := by decide +kernel

/-- Neither connector is a letter or a digit. -/
theorem not_isAsciiOrDigit_of_isConnectCh :
    ∀ a : UInt8, isConnectCh a = true → isAsciiOrDigit a = false := by decide +kernel

/-- Whatever reads as a digit is a letter or a digit. -/
theorem isAsciiOrDigit_of_digitLike :
    ∀ a : UInt8, digitLike a = true → isAsciiOrDigit a = true := by decide +kernel

end CiteParser
